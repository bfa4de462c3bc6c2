import RaryOS.Core.RegisterFields
import RaryOS.Model.DeviceContext
import RaryOS.Soundness.TransferRing

/-! # The devices that the controller knows

`address_device` and `configure_endpoint` go through one input context and an array of device contexts, of which the
controller copies and changes parts. What it makes of them is a table of devices with their endpoints, which a call
changes for its slot only. An endpoint starts where the driver's ring does, so what the driver queues is executed.
-/

namespace RaryOS.Soundness

open RaryOS.Core RaryOS.Model

/-! ## The system -/

/-- A call, and whether the controller accepts its command. -/
inductive ContextCall where
  | addressDevice (slot : BitVec 8) (port speed : BitVec 32) (accepted : Bool)
  | configureEndpoint (slot epNum epType : BitVec 8) (mps : BitVec 16) (interval : BitVec 8) (accepted : Bool)

/-- The speed of a port has four bits, and endpoint 0 is not configured. -/
def ContextCall.Fits : ContextCall → Prop
  | addressDevice _ _ speed _ => speed < 16
  | configureEndpoint _ epNum _ _ _ _ => 0 < epNum ∧ epNum < 16

/-- The controller writes a device context. -/
def withDevice (s : UsbContexts) (j : BitVec 8) (out : Contexts) : UsbContexts :=
  { s with devCtx := Function.update s.devCtx j out }

/-- One call. The controller finds the device context through `dcbaap`, and configures a slot that has a device. -/
inductive ContextStep (ep0Ring intrRing : BitVec 64) : UsbContexts → ContextCall → UsbContexts → Prop
  | addressed {s : UsbContexts} {slot j : BitVec 8} {port speed : BitVec 32} {out : Contexts}
      (installed : (s.addressDevice ep0Ring slot port speed).dcbaap slot = some j)
      (executed : AddressExecuted (s.addressDevice ep0Ring slot port speed).inputCtx
        ((s.addressDevice ep0Ring slot port speed).devCtx j) out) :
      ContextStep ep0Ring intrRing s (.addressDevice slot port speed true)
        (withDevice (s.addressDevice ep0Ring slot port speed) j out)
  | refused (s : UsbContexts) (slot : BitVec 8) (port speed : BitVec 32) :
      ContextStep ep0Ring intrRing s (.addressDevice slot port speed false)
        (s.addressDevice ep0Ring slot port speed)
  | configured {s : UsbContexts} {slot j epNum epType : BitVec 8} {mps : BitVec 16} {interval : BitVec 8}
      {out : Contexts} (installed : s.dcbaap slot = some j) (device : (UsbDevice.read (s.devCtx j)).isSome = true)
      (executed : ConfigureExecuted (s.configureEndpoint intrRing slot epNum epType mps interval).inputCtx
        (s.devCtx j) out) :
      ContextStep ep0Ring intrRing s (.configureEndpoint slot epNum epType mps interval true)
        (withDevice (s.configureEndpoint intrRing slot epNum epType mps interval) j out)
  | unconfigured (s : UsbContexts) (slot epNum epType : BitVec 8) (mps : BitVec 16) (interval : BitVec 8) :
      ContextStep ep0Ring intrRing s (.configureEndpoint slot epNum epType mps interval false)
        (s.configureEndpoint intrRing slot epNum epType mps interval)

/-! ## The table of devices -/

/-- The devices of the slots. -/
abbrev DeviceTable := BitVec 8 → Option UsbDevice

/-- Endpoint 0, a control endpoint. -/
def controlEndpoint (ep0Ring : BitVec 64) : UsbEndpoint :=
  { epType := 4, maxPacketSize := 8, interval := 0, ring := ep0Ring, cycle := true }

/-- What a call does to the table. -/
def DeviceTable.apply (ep0Ring intrRing : BitVec 64) (table : DeviceTable) : ContextCall → DeviceTable
  | .addressDevice slot port speed accepted =>
    Function.update table slot
      (if accepted then
        some
          { port := port.setWidth 8
            speed := speed.setWidth 4
            endpoints := Function.update (fun _ => none) 1 (some (controlEndpoint ep0Ring)) }
      else none)
  | .configureEndpoint slot epNum epType mps interval accepted =>
    if accepted then
      Function.update table slot ((table slot).map fun d =>
        { d with
          endpoints := Function.update d.endpoints (2 * epNum.toNat + 1) (some
            { epType := epType.setWidth 3
              maxPacketSize := mps
              interval := interval
              ring := intrRing
              cycle := true }) })
    else table

/-! ## Fields of contexts -/

section Fields

variable {input out : ℕ → BitVec 32}

/-- A pointer that is cut at 16 bytes comes back from its two words. -/
theorem dequeue_pointer {ring : BitVec 64} (aligned : ring &&& 0xF = 0) :
    (ring >>> 32).setWidth 32 ++ ((ring &&& 0xFFFFFFF0).setWidth 32 ||| (1 : BitVec 32)).extractLsb' 4 28 ++ 0#4 =
      ring := by
  have mask : ∀ i < 64, (0xFFFFFFF0 : BitVec 64).getLsbD i = (decide (4 ≤ i) && decide (i < 32)) := by decide
  have ones : ∀ i < 4, (0xF : BitVec 64).getLsbD i = true := by decide
  have one : ∀ i < 32, 4 ≤ i → (1 : BitVec 32).getLsbD i = false := by decide
  apply BitVec.eq_of_getLsbD_eq
  intro i inside
  rw [BitVec.getLsbD_append, BitVec.getLsbD_append]
  split
  · next below =>
    have bit := congrArg (fun z => z.getLsbD i) aligned
    simp only [BitVec.getLsbD_and, ones i below, Bool.and_true] at bit
    exact BitVec.getLsbD_zero.trans (BitVec.getLsbD_zero.symm.trans bit.symm)
  · split
    · next word =>
      rw [BitVec.getLsbD_extractLsb', BitVec.getLsbD_or, show 4 + (i - 4) = i by omega, one i (by omega) (by omega),
        BitVec.getLsbD_setWidth, BitVec.getLsbD_and, mask i inside]
      simp [word, show i < 32 by omega, show 4 ≤ i by omega]
    · rw [BitVec.getLsbD_setWidth, BitVec.getLsbD_ushiftRight, show 32 + (i - 4 - 28) = i by omega]
      simp [show i - 4 - 28 < 32 by omega]

/-- An endpoint that the driver describes and the controller runs. -/
theorem endpoint_read {ec0 ec1 : BitVec 32} {ring : BitVec 64} (aligned : ring &&& 0xF = 0)
    (runs : EndpointRuns (endpointWords ec0 ec1 ring) out) :
    UsbEndpoint.read out = some
      { epType := ec1.extractLsb' 3 3
        maxPacketSize := ec1.extractLsb' 16 16
        interval := ec0.extractLsb' 16 8
        ring := ring
        cycle := true } := by
  have first : out 1 = ec1 := runs.words 1 (by decide) (by decide)
  have second : out 2 = (ring &&& 0xFFFFFFF0).setWidth 32 ||| 1 := runs.words 2 (by decide) (by decide)
  have third : out 3 = (ring >>> 32).setWidth 32 := runs.words 3 (by decide) (by decide)
  have interval : (out 0).extractLsb' 16 8 = ec0.extractLsb' 16 8 :=
    extract_of_ushiftRight runs.rest (by decide)
  have running : ¬(1 : BitVec 3) = 0 := by decide
  have cycle : ((ring &&& 0xFFFFFFF0).setWidth 32 ||| (1 : BitVec 32)).getLsbD 0 = true := by
    rw [BitVec.getLsbD_or]
    exact Bool.or_true _
  rw [UsbEndpoint.read, runs.state, if_neg running, first, second, third, interval, dequeue_pointer aligned, cycle]

/-- The second word of an endpoint context. -/
theorem endpoint_fields (epType : BitVec 8) (mps : BitVec 16) :
    (epType.setWidth 32 <<< 3 ||| mps.setWidth 32 <<< 16).extractLsb' 3 3 = epType.setWidth 3 ∧
      (epType.setWidth 32 <<< 3 ||| mps.setWidth 32 <<< 16).extractLsb' 16 16 = mps := by
  rw [BitVec.extractLsb'_or, BitVec.extractLsb'_or, extract_shiftLeft_same _ (by decide),
    extract_shiftLeft_below _ (by decide), extract_shiftLeft_above _ (by decide), extract_shiftLeft_same _ (by decide),
    BitVec.setWidth_setWidth_of_le _ (by decide), BitVec.setWidth_setWidth_of_le _ (by decide), BitVec.setWidth_eq]
  exact ⟨BitVec.or_zero, BitVec.zero_or⟩

/-- The first word of the slot context, with one entry. -/
theorem slot_fields {speed : BitVec 32} (small : speed < 16) :
    (speed <<< 20 ||| 1#32 <<< 27).extractLsb' 27 5 = 1 ∧
      (speed <<< 20 ||| 1#32 <<< 27).extractLsb' 20 4 = speed.setWidth 4 := by
  have short : (speed.setWidth 4).setWidth 32 = speed := by
    have bound : speed.toNat < 16 := small
    apply BitVec.eq_of_toNat_eq
    rw [BitVec.toNat_setWidth, BitVec.toNat_setWidth]
    omega
  have above : (speed <<< 20).extractLsb' 27 5 = 0 := by
    rw [← short]
    exact extract_shiftLeft_above _ (by decide)
  refine ⟨?_, ?_⟩
  · rw [BitVec.extractLsb'_or, above]
    decide
  · rw [BitVec.extractLsb'_or, extract_shiftLeft_same speed (by decide), extract_shiftLeft_below (1#32) (by decide)]
    exact BitVec.or_zero

/-- The number of entries only grows. -/
theorem withEntries_entries (sc0 : BitVec 32) {dci : BitVec 8} (small : dci.toNat < 32) :
    ((withEntries sc0 dci).extractLsb' 27 5).toNat = max (sc0.extractLsb' 27 5).toNat dci.toNat := by
  have before : (sc0 >>> 27 &&& 0x1F).toNat = (sc0.extractLsb' 27 5).toNat := by
    rw [BitVec.toNat_and, BitVec.extractLsb'_toNat, BitVec.toNat_ushiftRight]
    exact Nat.and_two_pow_sub_one_eq_mod _ 5
  have old := (sc0.extractLsb' 27 5).isLt
  have cleared : (~~~(0x1F#32 <<< 27)).extractLsb' 27 5 = 0 := by decide
  have wide : (dci.setWidth 32).toNat = dci.toNat := by
    rw [BitVec.toNat_setWidth]
    omega
  rw [withEntries, BitVec.extractLsb'_or, BitVec.extractLsb'_and, cleared, extract_shiftLeft_same _ (by decide),
    show sc0.extractLsb' 27 5 &&& 0 = 0#5 from BitVec.and_zero, BitVec.zero_or, BitVec.toNat_setWidth]
  split
  · next more =>
    rw [BitVec.lt_def, before, wide] at more
    omega
  · next enough =>
    rw [BitVec.lt_def, before, wide] at enough
    omega

end Fields

/-! ## The invariant -/

/-- The devices are those of the table, `dcbaap` points to the slots' own elements, and no endpoint behind the last
entry is enabled. -/
structure ContextInv (table : DeviceTable) (s : UsbContexts) : Prop where
  devices : ∀ slot, UsbDevice.read (s.devCtx slot) = table slot
  own : ∀ slot j, s.dcbaap slot = some j → j = slot
  tidy : ∀ slot k, contextEntries (s.devCtx slot 0) < k → UsbEndpoint.read (s.devCtx slot k) = none

section Steps

variable {ep0Ring intrRing : BitVec 64} {table : DeviceTable} {s t : UsbContexts}

theorem read_zeroed : UsbEndpoint.read (fun _ => 0) = none := if_pos rfl

theorem read_none : UsbDevice.read (fun _ _ => 0) = none := if_pos rfl

/-- Nothing is set up yet. -/
theorem contextInv_start : ContextInv (fun _ => none) {} where
  devices _ := read_none
  own _ _ found := absurd found.symm (Option.some_ne_none _)
  tidy _ _ _ := read_zeroed

/-- A slot's device context is replaced. -/
theorem ContextInv.set (inv : ContextInv table s) {slot : BitVec 8} {out : Contexts}
    (written : t.devCtx = Function.update s.devCtx slot out)
    (own : ∀ other j, t.dcbaap other = some j → j = other)
    (tidy : ∀ k, contextEntries (out 0) < k → UsbEndpoint.read (out k) = none) :
    ContextInv (Function.update table slot (UsbDevice.read out)) t := by
  refine ⟨fun other => ?_, own, fun other => ?_⟩
  · rw [written, Function.update_apply, Function.update_apply]
    split
    · rfl
    · exact inv.devices other
  · rw [written, Function.update_apply]
    split
    · exact tidy
    · exact inv.tidy other

/-! ## `address_device` -/

/-- The device of a slot that was addressed. -/
theorem addressExecuted_device (aligned : ep0Ring &&& 0xF = 0) {slot : BitVec 8} {port speed : BitVec 32}
    (fits : speed < 16) {out : Contexts}
    (executed : AddressExecuted (s.addressDevice ep0Ring slot port speed).inputCtx (fun _ _ => 0) out) :
    contextEntries (out 0) = 1 ∧ UsbDevice.read out = some
      { port := port.setWidth 8
        speed := speed.setWidth 4
        endpoints := Function.update (fun _ => none) 1 (some (controlEndpoint ep0Ring)) } := by
  have first : out 0 0 = speed <<< 20 ||| 1#32 <<< 27 := executed.slot 0 (by decide)
  have second : out 0 1 = port <<< 16 := executed.slot 1 (by decide)
  obtain ⟨one, sped⟩ := slot_fields fits
  have entries : contextEntries (out 0) = 1 := by
    rw [contextEntries, first, one]
    rfl
  have control : UsbEndpoint.read (out 1) = some (controlEndpoint ep0Ring) :=
    (endpoint_read aligned executed.control).trans rfl
  refine ⟨entries, ?_⟩
  rw [UsbDevice.read, entries, if_neg (by decide), first, second, sped, extract_shiftLeft_same _ (by decide)]
  congr 2
  funext k
  rw [Function.update_apply]
  rcases em (k = 1) with rfl | other
  · rw [if_pos (by decide), if_pos rfl, control]
  · rw [if_neg (by omega), if_neg other]

theorem ContextInv.own_addressDevice (inv : ContextInv table s) (ep0Ring : BitVec 64) (slot : BitVec 8)
    (port speed : BitVec 32) (other j : BitVec 8)
    (found : (s.addressDevice ep0Ring slot port speed).dcbaap other = some j) : j = other := by
  have installed : Function.update s.dcbaap slot (some slot) other = some j := found
  rw [Function.update_apply] at installed
  split at installed
  · next same => rw [same, Option.some.inj installed]
  · exact inv.own other j installed

/-- The controller accepts the command. -/
theorem ContextInv.addressed (inv : ContextInv table s) (aligned : ep0Ring &&& 0xF = 0) {slot j : BitVec 8}
    {port speed : BitVec 32} (fits : speed < 16) {out : Contexts}
    (installed : (s.addressDevice ep0Ring slot port speed).dcbaap slot = some j)
    (executed : AddressExecuted (s.addressDevice ep0Ring slot port speed).inputCtx
      ((s.addressDevice ep0Ring slot port speed).devCtx j) out) :
    ContextInv (table.apply ep0Ring intrRing (.addressDevice slot port speed true))
      (withDevice (s.addressDevice ep0Ring slot port speed) j out) := by
  have own := inv.own_addressDevice ep0Ring slot port speed
  obtain rfl := own slot j installed
  have zeroed : (s.addressDevice ep0Ring j port speed).devCtx j = fun _ _ => 0 := Function.update_self _ _ _
  rw [zeroed] at executed
  obtain ⟨entries, device⟩ := addressExecuted_device aligned fits executed
  rw [DeviceTable.apply, if_pos rfl, ← device]
  refine inv.set (Function.update_idem _ _ _) own fun k behind => ?_
  rw [executed.others k (by omega)]
  exact read_zeroed

/-- The controller refuses it, and the slot has no device any more. -/
theorem ContextInv.refused (inv : ContextInv table s) (slot : BitVec 8) (port speed : BitVec 32) :
    ContextInv (table.apply ep0Ring intrRing (.addressDevice slot port speed false))
      (s.addressDevice ep0Ring slot port speed) := by
  rw [DeviceTable.apply, if_neg Bool.false_ne_true, ← read_none]
  exact inv.set rfl (inv.own_addressDevice ep0Ring slot port speed) fun _ _ => read_zeroed

/-! ## `configure_endpoint` -/

theorem endpointDci_toNat {epNum : BitVec 8} (small : epNum < 16) :
    (endpointDci epNum).toNat = 2 * epNum.toNat + 1 := by
  have bound : epNum.toNat < 16 := small
  rw [endpointDci, BitVec.toNat_add, BitVec.toNat_mul]
  change (epNum.toNat * 2 % 256 + 1) % 256 = _
  omega

/-- Besides the slot one endpoint is added. -/
theorem addFlag_iff (dci : ℕ) {k : ℕ} (small : dci < 32) (endpoint : 2 ≤ k) :
    (1#32 <<< 0 ||| 1#32 <<< dci).getLsbD k = true ↔ k = dci := by
  have one (i : ℕ) : (1#32).getLsbD i = decide (i = 0) := by
    rw [BitVec.getLsbD_one]
    exact Bool.true_and _
  rw [BitVec.getLsbD_or, BitVec.getLsbD_shiftLeft, BitVec.getLsbD_shiftLeft, one, one]
  simp only [Bool.or_eq_true, Bool.and_eq_true, Bool.not_eq_true', decide_eq_true_eq, decide_eq_false_iff_not]
  omega

/-- The input context of `configure_endpoint`. -/
theorem configureEndpoint_input (intrRing : BitVec 64) (s : UsbContexts) (slot epType : BitVec 8) {epNum : BitVec 8}
    (mps : BitVec 16) (interval : BitVec 8) (small : epNum < 16) :
    (s.configureEndpoint intrRing slot epNum epType mps interval).inputCtx 0 =
        wordsOf [0, 1#32 <<< 0 ||| 1#32 <<< (2 * epNum.toNat + 1)] ∧
      contextEntries ((s.configureEndpoint intrRing slot epNum epType mps interval).inputCtx 1) =
        max (contextEntries (s.devCtx slot 0)) (2 * epNum.toNat + 1) ∧
      (s.configureEndpoint intrRing slot epNum epType mps interval).inputCtx (2 * epNum.toNat + 1 + 1) =
        endpointWords (interval.setWidth 32 <<< 16) (epType.setWidth 32 <<< 3 ||| mps.setWidth 32 <<< 16) intrRing := by
  have bound : epNum.toNat < 16 := small
  have dci := endpointDci_toNat small
  refine ⟨?_, ?_, ?_⟩
  · simp only [UsbContexts.configureEndpoint, dci]
    exact Function.update_of_ne (Nat.succ_ne_zero _).symm _ _
  · have high : (endpointDci epNum).toNat < 32 := by omega
    have entries := withEntries_entries (s.devCtx slot 0 0) high
    rw [dci] at entries
    have place : (s.configureEndpoint intrRing slot epNum epType mps interval).inputCtx 1 =
        Function.update (s.devCtx slot 0) 0 (withEntries (s.devCtx slot 0 0) (endpointDci epNum)) := by
      simp only [UsbContexts.configureEndpoint, dci]
      exact Function.update_of_ne (by omega) _ _
    rw [place, contextEntries, Function.update_self]
    exact entries
  · simp only [UsbContexts.configureEndpoint, dci]
    exact Function.update_self _ _ _

section Configured

variable {slot epNum epType : BitVec 8} {mps : BitVec 16} {interval : BitVec 8} {out : Contexts}

/-- What the controller does with it: one endpoint runs, and the others are left. -/
theorem configureExecuted_contexts (aligned : intrRing &&& 0xF = 0) (positive : 0 < epNum) (small : epNum < 16)
    (executed : ConfigureExecuted (s.configureEndpoint intrRing slot epNum epType mps interval).inputCtx
      (s.devCtx slot) out) :
    contextEntries (out 0) = max (contextEntries (s.devCtx slot 0)) (2 * epNum.toNat + 1) ∧
      UsbEndpoint.read (out (2 * epNum.toNat + 1)) = some
        { epType := epType.setWidth 3
          maxPacketSize := mps
          interval := interval
          ring := intrRing
          cycle := true } ∧
      ∀ k, 1 ≤ k → k ≠ 2 * epNum.toNat + 1 → out k = s.devCtx slot k := by
  obtain ⟨flags, entries, words⟩ :=
    configureEndpoint_input intrRing s slot epType mps interval small
  have bounds : 0 < epNum.toNat ∧ epNum.toNat < 16 := ⟨positive, small⟩
  have added (k : ℕ) (endpoint : 2 ≤ k) := addFlag_iff (2 * epNum.toNat + 1) (by omega) endpoint
  obtain ⟨type, size⟩ := endpoint_fields epType mps
  refine ⟨executed.entries.trans entries, ?_, fun k endpoint other => executed.others k endpoint ?_⟩
  · have runs := executed.added (2 * epNum.toNat + 1) (by omega) (by
      rw [flags]
      exact (added _ (by omega)).mpr rfl)
    rw [words] at runs
    rw [endpoint_read aligned runs, type, size, extract_shiftLeft_same _ (by decide),
      BitVec.setWidth_setWidth_of_le _ (by decide), BitVec.setWidth_eq]
  · rcases Nat.lt_or_ge k 2 with control | further
    · exact Or.inl (by omega)
    · rw [flags]
      refine Or.inr ⟨?_, BitVec.getLsbD_zero⟩
      exact Bool.eq_false_iff.mpr (mt (added k further).mp other)

/-- The device of a slot that was configured. -/
theorem configureExecuted_device (aligned : intrRing &&& 0xF = 0) (positive : 0 < epNum) (small : epNum < 16)
    {d : UsbDevice} (device : UsbDevice.read (s.devCtx slot) = some d)
    (tidy : ∀ k, contextEntries (s.devCtx slot 0) < k → UsbEndpoint.read (s.devCtx slot k) = none)
    (executed : ConfigureExecuted (s.configureEndpoint intrRing slot epNum epType mps interval).inputCtx
      (s.devCtx slot) out) :
    UsbDevice.read out = some { d with
      endpoints := Function.update d.endpoints (2 * epNum.toNat + 1) (some
        { epType := epType.setWidth 3
          maxPacketSize := mps
          interval := interval
          ring := intrRing
          cycle := true }) } := by
  obtain ⟨entries, endpoint, others⟩ := configureExecuted_contexts aligned positive small executed
  have port := executed.slot 1 (by decide) (by decide)
  have speed : (out 0 0).extractLsb' 20 4 = (s.devCtx slot 0 0).extractLsb' 20 4 :=
    extract_of_setWidth executed.rest (by decide)
  rw [UsbDevice.read] at device ⊢
  split at device
  · cases device
  · cases device
    rw [if_neg (by omega), port, speed, entries]
    congr 2
    funext k
    rw [Function.update_apply]
    rcases em (k = 2 * epNum.toNat + 1) with rfl | other
    · rw [if_pos (by omega), if_pos rfl, endpoint]
    · rw [if_neg other]
      rcases Nat.lt_or_ge k 1 with slotContext | endpoint
      · rw [if_neg (by omega)]
        exact (if_neg (by omega)).symm
      · rw [others k endpoint other]
        rcases Nat.lt_or_ge (contextEntries (s.devCtx slot 0)) k with behind | known
        · rw [tidy k behind, ite_self]
          exact (if_neg (by omega)).symm
        · rw [if_pos (by omega)]
          exact (if_pos ⟨endpoint, known⟩).symm

/-- The controller accepts the command. -/
theorem ContextInv.configured (inv : ContextInv table s) (aligned : intrRing &&& 0xF = 0) {j : BitVec 8}
    (positive : 0 < epNum) (small : epNum < 16) (installed : s.dcbaap slot = some j)
    (device : (UsbDevice.read (s.devCtx j)).isSome = true)
    (executed : ConfigureExecuted (s.configureEndpoint intrRing slot epNum epType mps interval).inputCtx
      (s.devCtx j) out) :
    ContextInv (table.apply ep0Ring intrRing (.configureEndpoint slot epNum epType mps interval true))
      (withDevice (s.configureEndpoint intrRing slot epNum epType mps interval) j out) := by
  obtain rfl := inv.own slot j installed
  obtain ⟨d, found⟩ := Option.isSome_iff_exists.mp device
  obtain ⟨entries, _, others⟩ := configureExecuted_contexts aligned positive small executed
  have known := (inv.devices j).symm.trans found
  rw [DeviceTable.apply, if_pos rfl, known, Option.map_some,
    ← configureExecuted_device aligned positive small found (inv.tidy j) executed]
  refine inv.set rfl inv.own fun k behind => ?_
  rw [others k (by omega) (by omega)]
  exact inv.tidy j k (by omega)

end Configured

theorem ContextInv.step (inv : ContextInv table s) (ep0Aligned : ep0Ring &&& 0xF = 0)
    (intrAligned : intrRing &&& 0xF = 0) {call : ContextCall} (fits : call.Fits)
    (step : ContextStep ep0Ring intrRing s call t) : ContextInv (table.apply ep0Ring intrRing call) t := by
  cases step with
  | addressed installed executed => exact inv.addressed ep0Aligned fits installed executed
  | refused slot port speed => exact inv.refused slot port speed
  | configured installed device executed =>
    exact inv.configured intrAligned fits.1 fits.2 installed device executed
  | unconfigured => exact ⟨inv.devices, inv.own, inv.tidy⟩

end Steps

/-! ## Rings -/

/-- Where the endpoints of a table start. -/
def StartsAtRings (ep0Ring intrRing : BitVec 64) (table : DeviceTable) : Prop :=
  ∀ slot d k e, table slot = some d → d.endpoints k = some e →
    e.cycle = true ∧ e.ring = if k = 1 then ep0Ring else intrRing

section Rings

variable {ep0Ring intrRing : BitVec 64} {table : DeviceTable}

/-- A slot's device is replaced. -/
theorem StartsAtRings.set (starts : StartsAtRings ep0Ring intrRing table) {slot : BitVec 8} {new : Option UsbDevice}
    (own : ∀ d k e, new = some d → d.endpoints k = some e →
      e.cycle = true ∧ e.ring = if k = 1 then ep0Ring else intrRing) :
    StartsAtRings ep0Ring intrRing (Function.update table slot new) := by
  intro other d k e found endpoint
  rw [Function.update_apply] at found
  split at found
  · exact own d k e found endpoint
  · exact starts other d k e found endpoint

theorem StartsAtRings.apply (starts : StartsAtRings ep0Ring intrRing table) {call : ContextCall} (fits : call.Fits) :
    StartsAtRings ep0Ring intrRing (table.apply ep0Ring intrRing call) := by
  cases call with
  | addressDevice slot port speed accepted =>
    refine starts.set fun d k e found endpoint => ?_
    cases accepted with
    | false => cases found
    | true =>
      cases found
      simp only [Function.update_apply] at endpoint
      split at endpoint
      · next control =>
        cases endpoint
        exact ⟨rfl, (if_pos control).symm⟩
      · cases endpoint
  | configureEndpoint slot epNum epType mps interval accepted =>
    cases accepted with
    | false => exact starts
    | true =>
      refine starts.set fun d k e found endpoint => ?_
      obtain ⟨old, known, rfl⟩ := Option.map_eq_some_iff.mp found
      simp only [Function.update_apply] at endpoint
      split at endpoint
      · next place =>
        have positive : 0 < epNum.toNat := fits.1
        cases endpoint
        exact ⟨rfl, (if_neg (by omega)).symm⟩
      · exact starts slot old k e known endpoint

/-- The controller starts at the first TRB with the cycle state 1. -/
theorem consumer_start {e : UsbEndpoint} {ring : BitVec 64} (cycle : e.cycle = true) (place : e.ring = ring) :
    e.consumer ring = { dequeue := 0, ccs := 1 } := by
  rw [UsbEndpoint.consumer, cycle, place, BitVec.sub_self]
  rfl

end Rings

/-- For all calls of `address_device` and `configure_endpoint`, whichever slots they are for and whichever commands
the controller refuses: the devices and endpoints that it finds in the contexts are those of the table of the accepted
calls. Endpoint 0 starts where `ep0_init` does, and what the driver queues for an interrupt endpoint is executed. -/
theorem contexts_refine_devices {ep0Ring intrRing : BitVec 64} (ep0Aligned : ep0Ring &&& 0xF = 0)
    (intrAligned : intrRing &&& 0xF = 0) {calls : List ContextCall} {s : UsbContexts}
    (run : Path (ContextStep ep0Ring intrRing) {} calls s) (fits : ∀ call ∈ calls, call.Fits) :
    (∀ slot, UsbDevice.read (s.devCtx slot) =
      (calls.foldl (DeviceTable.apply ep0Ring intrRing) fun _ => none) slot) ∧
      ∀ slot d k e, UsbDevice.read (s.devCtx slot) = some d → d.endpoints k = some e →
        (k = 1 → e.consumer ep0Ring = ⟨ep0Init.idx, ep0Init.cycle⟩) ∧
          (k ≠ 1 → ∀ es t, Path (RingStep (queueInterruptInDriver intrRing.toNat))
            { ring := configureEndpointRing, consumer := e.consumer intrRing } es t →
              Executes (queueInterruptInDriver intrRing.toNat) t) := by
  obtain ⟨inv, starts⟩ := run.snoc_induction (fun calls s => (∀ call ∈ calls, call.Fits) →
      ContextInv (calls.foldl (DeviceTable.apply ep0Ring intrRing) fun _ => none) s ∧
        StartsAtRings ep0Ring intrRing (calls.foldl (DeviceTable.apply ep0Ring intrRing) fun _ => none))
    (fun _ => ⟨contextInv_start, fun _ _ _ _ found => absurd found.symm (Option.some_ne_none _)⟩)
    (by
      intro calls mid call t _ ih step fits
      obtain ⟨inv, starts⟩ := ih fun call member => fits call (List.mem_append_left _ member)
      have here := fits call (List.mem_append_right _ (List.mem_singleton_self call))
      rw [List.foldl_append, List.foldl_cons, List.foldl_nil]
      exact ⟨inv.step ep0Aligned intrAligned here step, starts.apply here⟩)
    fits
  refine ⟨inv.devices, fun slot d k e found endpoint => ?_⟩
  obtain ⟨cycle, place⟩ := starts slot d k e ((inv.devices slot).symm.trans found) endpoint
  refine ⟨fun control => consumer_start cycle (place.trans (if_pos control)), fun other es t run => ?_⟩
  rw [consumer_start cycle (place.trans (if_neg other))] at run
  exact executes_of_run configureEndpointRing_inv run

/-! A controller accepts both calls for a keyboard of full speed on port 2. -/

def sampleContexts : UsbContexts := UsbContexts.addressDevice {} 0x140000 1 2 1

def sampleAddressed : Contexts
  | 0 => sampleContexts.inputCtx 1
  | 1 => Function.update (sampleContexts.inputCtx 2) 0 1
  | _ => fun _ => 0

theorem sampleAddressed_executed :
    AddressExecuted sampleContexts.inputCtx (sampleContexts.devCtx 1) sampleAddressed where
  slot _ _ := rfl
  control := ⟨by decide, by decide, fun i positive _ => Function.update_of_ne (by omega) _ _⟩
  others k further := by
    obtain ⟨n, rfl⟩ := Nat.exists_eq_add_of_le' further
    rfl

def sampleInput : UsbContexts :=
  (withDevice sampleContexts 1 sampleAddressed).configureEndpoint 0x150000 1 1 7 8 10

def sampleConfigured : Contexts
  | 0 => sampleInput.inputCtx 1
  | 3 => Function.update (sampleInput.inputCtx 4) 0 0xA0001
  | k => sampleAddressed k

theorem sampleConfigured_executed : ConfigureExecuted sampleInput.inputCtx sampleAddressed sampleConfigured := by
  have flag (k : ℕ) (endpoint : 2 ≤ k) : (sampleInput.inputCtx 0 1).getLsbD k = true ↔ k = 3 :=
    addFlag_iff 3 (by decide) endpoint
  refine ⟨rfl, by decide, fun i positive _ => Function.update_of_ne (by omega) _ _, fun k endpoint added => ?_,
    fun k _ _ dropped => ?_, fun k endpoint left => ?_⟩
  · obtain rfl := (flag k endpoint).mp added
    exact ⟨by decide, by decide, fun i positive _ => Function.update_of_ne (by omega) _ _⟩
  · have kept : (sampleInput.inputCtx 0 0).getLsbD k = false := BitVec.getLsbD_zero
    rw [kept] at dropped
    cases dropped
  · rcases Nat.lt_or_ge k 4 with early | late
    · obtain rfl | rfl | rfl : k = 1 ∨ k = 2 ∨ k = 3 := by omega
      · rfl
      · rfl
      · rw [(flag 3 (by decide)).mpr rfl] at left
        simp at left
    · obtain ⟨n, rfl⟩ := Nat.exists_eq_add_of_le' late
      rfl

theorem contexts_refine_devices_sample :
    ∃ s, Path (ContextStep 0x140000 0x150000) {}
        [.addressDevice 1 2 1 true, .configureEndpoint 1 1 7 8 10 true] s ∧
      ((UsbDevice.read (s.devCtx 1)).bind fun d => d.endpoints 3) = some ⟨7, 8, 10, 0x150000, true⟩ := by
  have run : Path (ContextStep 0x140000 0x150000) {}
      [.addressDevice 1 2 1 true, .configureEndpoint 1 1 7 8 10 true] _ :=
    .cons (.addressed rfl sampleAddressed_executed) (.cons (.configured rfl rfl sampleConfigured_executed) (.nil _))
  have fits : ∀ call ∈ [ContextCall.addressDevice 1 2 1 true, .configureEndpoint 1 1 7 8 10 true], call.Fits := by
    intro call member
    simp only [List.mem_cons, List.not_mem_nil, or_false] at member
    rcases member with rfl | rfl
    · exact (by decide : (1 : BitVec 32) < 16)
    · exact (by decide : (0 : BitVec 8) < 1 ∧ (1 : BitVec 8) < 16)
  obtain ⟨devices, _⟩ := contexts_refine_devices (by decide) (by decide) run fits
  refine ⟨_, run, ?_⟩
  rw [devices 1]
  decide

end RaryOS.Soundness
