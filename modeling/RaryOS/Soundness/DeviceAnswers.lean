import RaryOS.Proofs.KeyboardSetup

/-! # What a device can do to the setup of the keyboard

`setup_keyboard` asks for 256 bytes of the configuration descriptor and walks over as many as the descriptor
says it has. It stays inside the bytes that it asked for exactly when each descriptor that the walk comes to
does, as far as the loop looks at it. The packet size of the endpoint becomes the length of every transfer into
`intr_buf`, so these fit exactly when it does.
-/

namespace RaryOS.Soundness

open RaryOS.Core RaryOS.Model

/-! ## The bytes that are read -/

/-- The bytes that the requests for descriptors ask for. -/
def requestedBytes : ℕ := 256

/-- Everything that the loop of `find_hid_keyboard` reads lies below `limit`. -/
def ReadsInside (cfg : Memory) (total limit : ℕ) : Prop :=
  ∀ s, Reaches (findHidKeyboardBody cfg total) {} s → ∀ i ∈ findHidKeyboardReads cfg total s, i < limit

/-- How much of the descriptor at `off` the loop looks at. -/
def lookedAt (cfg : Memory) (total off : ℕ) (inHidIface : Bool) : ℕ :=
  if descByte cfg off 0 = 0 then 2
  else if InterfaceAt cfg total off then
    if descByte cfg off 5 = 3 then if descByte cfg off 6 = 1 then 8 else 7 else 6
  else if descByte cfg off 1 = usbDescEndpoint ∧ off + 7 ≤ total ∧ inHidIface = true then
    if descByte cfg off 3 % 4 = 3 then if 128 ≤ descByte cfg off 2 then 7 else 4 else 4
  else 2

section Reads

variable {cfg : Memory} {total limit : ℕ} {s : HidScan}

/-- The reads of an iteration without wrapping around. -/
theorem findHidKeyboardReads_eq (small : s.off + 512 ≤ 2 ^ 32) :
    findHidKeyboardReads cfg total s =
      if s.off + 2 ≤ total then
        [s.off, s.off + 1] ++
          if descByte cfg s.off 0 = 0 then []
          else if InterfaceAt cfg total s.off then
            [s.off + 2, s.off + 5] ++
              if descByte cfg s.off 5 = 3 then
                (s.off + 6) :: if descByte cfg s.off 6 = 1 then [s.off + 7] else []
              else []
          else if descByte cfg s.off 1 = usbDescEndpoint ∧ s.off + 7 ≤ total ∧ s.inHidIface = true then
            (s.off + 3) ::
              if descByte cfg s.off 3 % 4 = 3 then
                (s.off + 2) ::
                  if 128 ≤ descByte cfg s.off 2 then [s.off + 4, s.off + 5, s.off + 6] else []
              else []
          else []
      else [] := by
  have byte : ∀ k < 9, cfgByte cfg s.off k = descByte cfg s.off k := fun k _ => cfgByte_eq cfg (by omega)
  have index : ∀ k < 9, (s.off + k) % 2 ^ 32 = s.off + k := fun k _ => Nat.mod_eq_of_lt (by omega)
  simp only [findHidKeyboardReads, cfgHas_iff total (show s.off + 2 < 2 ^ 32 by omega),
    cfgHas_iff total (show s.off + 9 < 2 ^ 32 by omega), cfgHas_iff total (show s.off + 7 < 2 ^ 32 by omega),
    byte 0 (by decide), byte 1 (by decide), byte 2 (by decide), byte 3 (by decide), byte 5 (by decide),
    byte 6 (by decide), Nat.mod_eq_of_lt (show s.off < 2 ^ 32 by omega), index 1 (by decide), index 2 (by decide),
    index 3 (by decide), index 4 (by decide), index 5 (by decide), index 6 (by decide), index 7 (by decide),
    and_three_eq, and_high_bit_ne_zero_iff (descByte_lt cfg s.off 2), Nat.add_zero, InterfaceAt]
  split_ifs <;> rfl

theorem findHidKeyboardReads_lt_iff (small : s.off + 512 ≤ 2 ^ 32) :
    (∀ i ∈ findHidKeyboardReads cfg total s, i < limit) ↔
      (s.off + 2 ≤ total → s.off + lookedAt cfg total s.off s.inHidIface ≤ limit) := by
  rw [findHidKeyboardReads_eq small, lookedAt]
  by_cases inside : s.off + 2 ≤ total
  · rw [if_pos inside, imp_iff_right inside]
    simp only [List.forall_mem_append, List.forall_mem_cons, List.not_mem_nil, false_implies, implies_true, and_true]
    by_cases length : descByte cfg s.off 0 = 0
    · rw [if_pos length, if_pos length]
      simp only [List.not_mem_nil, false_implies, implies_true, and_true]
      omega
    · rw [if_neg length, if_neg length]
      by_cases interface : InterfaceAt cfg total s.off
      · rw [if_pos interface, if_pos interface]
        split_ifs <;>
          simp only [List.forall_mem_append, List.forall_mem_cons, List.not_mem_nil, false_implies, implies_true,
            and_true] <;>
          omega
      · rw [if_neg interface, if_neg interface]
        split_ifs <;>
          simp only [List.forall_mem_cons, List.not_mem_nil, false_implies, implies_true, and_true] <;>
          omega
  · rw [if_neg inside]
    exact iff_of_true (fun i member => absurd member List.not_mem_nil) fun within => absurd within inside

/-- The loop stays below the limit exactly when each descriptor that the walk comes to does. -/
theorem readsInside_iff (small : total + 1024 ≤ 2 ^ 32) : ReadsInside cfg total limit ↔
    ∀ off inHidIface, HidReaches cfg total off inHidIface → off + 2 ≤ total →
      off + lookedAt cfg total off inHidIface ≤ limit := by
  constructor
  · intro inside off inHidIface walk
    have near := walk.le
    obtain ⟨out, reaches⟩ := reaches_of_hidReaches small walk
    have wide : off + 512 ≤ 2 ^ 32 := by omega
    exact (@findHidKeyboardReads_lt_iff cfg total limit ⟨off, inHidIface, out⟩ wide).mp (inside _ reaches)
  · intro inside s reaches
    have walk := hidReaches_of_reaches small reaches
    have near := walk.le
    exact (findHidKeyboardReads_lt_iff (by omega)).mpr (inside s.off s.inHidIface walk)

theorem lookedAt_le {off : ℕ} {inHidIface : Bool} (header : off + 2 ≤ total) :
    off + lookedAt cfg total off inHidIface ≤ total := by
  by_cases interface : InterfaceAt cfg total off
  · have long := interface.2
    simp only [lookedAt, if_pos interface]
    split_ifs <;> omega
  · simp only [lookedAt, if_neg interface]
    split_ifs <;> omega

end Reads

/-- For every answer of the device: `find_hid_keyboard` stays inside the bytes asked for exactly when every
descriptor that the walk comes to ends there, as far as it is looked at. -/
theorem descriptor_reads_inside_iff (s : SetupState) (a : SetupAnswers) :
    ReadsInside (receivedConfig s a) (configTotal (receivedConfig s a)) requestedBytes ↔
      ∀ off inHidIface, HidReaches (receivedConfig s a) (configTotal (receivedConfig s a)) off inHidIface →
        off + 2 ≤ configTotal (receivedConfig s a) →
          off + lookedAt (receivedConfig s a) (configTotal (receivedConfig s a)) off inHidIface ≤ requestedBytes :=
  readsInside_iff (configTotal_small (receivedConfig s a))

/-- A total length of 256 at most is enough. -/
theorem descriptor_reads_inside_of_total {s : SetupState} {a : SetupAnswers}
    (total : configTotal (receivedConfig s a) ≤ requestedBytes) :
    ReadsInside (receivedConfig s a) (configTotal (receivedConfig s a)) requestedBytes := by
  rw [readsInside_iff (configTotal_small (receivedConfig s a))]
  intro off inHidIface _ header
  exact (lookedAt_le header).trans total

/-! ## The lengths of the transfers -/

/-- `sizeof(intr_buf)`. -/
def intrBufSize : ℕ := 64

/-- TRB Transfer Length of every interrupt-IN TRB on the ring. -/
def TransfersFit (x : Xhci) : Prop :=
  ∀ slot, (x.intrRing slot).type = xhciTrbNormal → bitField (x.intrRing slot).status 0 17 ≤ intrBufSize

/-- The driver after `run`, with the iterations left and `got_xfer` inside `handle_interrupt`. -/
structure TransferDriver where
  x : Xhci
  handler : Option (ℕ × Bool) := none

/-- One step: the controller writes the event ring and the buffer, somebody takes characters, or the driver
enters `handle_interrupt`, makes an iteration of its loop, or leaves it. -/
inductive TransferStep : TransferDriver → TransferDriver → Prop
  | controller {d : TransferDriver} (evtRing : ℕ → Trb) (intrBuf : ℕ → ℕ) :
      TransferStep d { d with x := { d.x with evtRing := evtRing, intrBuf := intrBuf } }
  | reader {d : TransferDriver} (input : InputBuffer) : TransferStep d { d with x := { d.x with input := input } }
  | handlerBegin {d : TransferDriver} : d.handler = none →
      TransferStep d ⟨d.x.handleInterruptBegin, some (ringTrbs, false)⟩
  | handlerEvent {d : TransferDriver} {budget : ℕ} {gotXfer keyboard : Bool} {y : Xhci} :
      d.handler = some (budget + 1, gotXfer) → d.x.handleEvent = some (y, keyboard) →
        TransferStep d ⟨y, some (budget, gotXfer || keyboard)⟩
  | handlerEnd {d : TransferDriver} {budget : ℕ} {gotXfer : Bool} :
      d.handler = some (budget, gotXfer) → budget = 0 ∨ d.x.handleEvent = none →
        TransferStep d ⟨d.x.handleInterruptEnd gotXfer, none⟩

/-- The driver when `run` has queued the first transfer. -/
def startedKeyboard (s : SetupState) (a : SetupAnswers) : TransferDriver :=
  ⟨(s.setupKeyboard a).1.x.armKeyboard (s.setupKeyboard a).2.toNat, none⟩

theorem startedKeyboard_x (s : SetupState) (a : SetupAnswers) :
    (startedKeyboard s a).x = (s.setupKeyboard a).1.x.armKeyboard (s.setupKeyboard a).2.toNat := rfl

/-- In every state of every run from there the transfers fit. -/
def TransfersAlwaysFit (s : SetupState) (a : SetupAnswers) : Prop :=
  ∀ d, Relation.ReflTransGen TransferStep (startedKeyboard s a) d → TransfersFit d.x

/-- What every step keeps while the packet size fits. -/
structure TransfersInv (x : Xhci) : Prop where
  mps : x.hidEpMps ≤ intrBufSize
  cycle : x.intr.cycle ≤ 1
  idx : x.intr.idx ≤ 255
  fit : TransfersFit x

section Transfers

variable {x y : Xhci} {d d' : TransferDriver}

theorem TransfersInv.of_same (inv : TransfersInv x) (same : SameTransfers x y) : TransfersInv y where
  mps := same.hidEpMps ▸ inv.mps
  cycle := same.intr ▸ inv.cycle
  idx := same.intr ▸ inv.idx
  fit slot := same.intrRing ▸ inv.fit slot

/-- The length of a queued TRB. -/
theorem interruptTrb_length {mps : ℕ} (small : mps < 2 ^ 17) (buffer cycle : ℕ) :
    bitField ((interruptTrb ⟨buffer, mps⟩).withCycle cycle).status 0 17 = mps :=
  bitField_zero_of_lt small

theorem TransfersInv.queue (inv : TransfersInv x) (slot : ℕ) : TransfersInv (x.queueInterruptInAsync slot) := by
  obtain ⟨⟨idx, cycle, bit, here, others⟩, nextCycle, nextIdx⟩ :=
    queueInterruptIn_queued x.intrRingPhys x.intrBufPhys x.hidEpMps inv.cycle inv.idx x.intrRing
  refine ⟨inv.mps, nextCycle, nextIdx, fun s normal => ?_⟩
  have mps := inv.mps
  rw [intrBufSize] at mps
  rw [Xhci.queueInterruptInAsync] at normal ⊢
  simp only at normal ⊢
  rcases eq_or_ne s idx with rfl | other
  · rw [here, interruptTrb_length (by omega)]
    exact mps
  · rcases others s other with same | link
    · rw [same] at normal ⊢
      exact inv.fit s normal
    · exact absurd (link.symm.trans normal) (by decide)

/-- One step keeps the invariant. -/
theorem TransferStep.inv (step : TransferStep d d') (inv : TransfersInv d.x) : TransfersInv d'.x := by
  cases step with
  | controller evtRing intrBuf => exact inv.of_same ⟨rfl, rfl, rfl⟩
  | reader input => exact inv.of_same ⟨rfl, rfl, rfl⟩
  | handlerBegin idle => exact inv.of_same d.x.handleInterruptBegin_transfers
  | handlerEvent _ handled => exact inv.of_same (Xhci.handleEvent_transfers handled)
  | handlerEnd _ _ =>
    simp only [Xhci.handleInterruptEnd]
    split_ifs
    · have pending : TransfersInv { d.x with xferPending := false } := inv.of_same ⟨rfl, rfl, rfl⟩
      obtain ⟨mps, cycle, idx, fit⟩ := pending.queue (d.x.usbActiveSlot % 2 ^ 8)
      exact ⟨mps, cycle, idx, fit⟩
    · exact inv.of_same ⟨rfl, rfl, rfl⟩

/-- Every run keeps it. -/
theorem transferRun_inv (run : Relation.ReflTransGen TransferStep d d') (inv : TransfersInv d.x) :
    TransfersInv d'.x := by
  induction run with
  | refl => exact inv
  | tail _ step ih => exact step.inv ih

/-- On a blank ring the first transfer fits when the packet size does. -/
theorem armKeyboard_inv (blank : x.intrRing = configureEndpointRing) (intr : x.intr = {})
    (mps : x.hidEpMps ≤ intrBufSize) (kbslot : ℕ) : TransfersInv (x.armKeyboard kbslot) := by
  have start : TransfersInv { x with usbActiveSlot := kbslot, xferPending := false } := by
    refine ⟨mps, by rw [intr], by rw [intr]; exact Nat.zero_le _, fun slot normal => ?_⟩
    simp only [blank] at normal
    exact absurd normal (show ¬({} : Trb).type = xhciTrbNormal by decide)
  obtain ⟨mps, cycle, idx, fit⟩ := start.queue (kbslot % 2 ^ 8)
  exact ⟨mps, cycle, idx, fit⟩

/-- When the first transfer fits, the packet size does. -/
theorem mps_le_of_armKeyboard (intr : x.intr = {}) (small : x.hidEpMps < 2 ^ 17) {kbslot : ℕ}
    (fit : TransfersFit (x.armKeyboard kbslot)) : x.hidEpMps ≤ intrBufSize := by
  obtain ⟨⟨idx, cycle, bit, here, _⟩, _, _⟩ := queueInterruptIn_queued x.intrRingPhys x.intrBufPhys x.hidEpMps
    (show x.intr.cycle ≤ 1 by rw [intr]) (show x.intr.idx ≤ 255 by rw [intr]; exact Nat.zero_le _) x.intrRing
  have armed : (x.armKeyboard kbslot).intrRing idx = _ := here
  have length := fit idx
  rw [armed, Trb.withCycle_type _ bit, interruptTrb_type, interruptTrb_length small] at length
  exact length rfl

end Transfers

/-- The packet size of the endpoint that the walk stops at. -/
def PacketsFit (cfg : Memory) (total : ℕ) : Prop :=
  ∀ off, HidReaches cfg total off true → KeyboardEndpointAt cfg total off true →
    descByte cfg off 4 + 256 * descByte cfg off 5 ≤ intrBufSize

/-- The walk stops at one endpoint only. -/
theorem packetsFit_iff {cfg : Memory} {total : ℕ} (small : total + 1024 ≤ 2 ^ 32) {k : HidKeyboard}
    (found : findHidKeyboard cfg total = some (0, k)) :
    k.mps < 2 ^ 16 ∧ (PacketsFit cfg total ↔ k.mps ≤ intrBufSize) := by
  obtain ⟨off, walk, here⟩ := findHidKeyboard_endpoint small found
  obtain ⟨out, values⟩ := findHidKeyboard_values small walk here found
  obtain rfl := congrArg Prod.snd values
  have low := descByte_lt cfg off 4
  have high := descByte_lt cfg off 5
  refine ⟨by simp only [endpointOut]; omega, fun fit => fit off walk here, fun fit off' walk' here' => ?_⟩
  obtain ⟨out', values'⟩ := findHidKeyboard_values small walk' here' found
  have same := congrArg (fun result => result.2.mps) values'
  exact same.symm.trans_le fit

/-- For every answer that `setup_keyboard` accepts: the transfers of every later run fit into `intr_buf` exactly
when the packet size of the endpoint in the descriptor does. -/
theorem transfer_lengths_fit_iff {s : SetupState} {a : SetupAnswers} (accepted : 0 ≤ (s.setupKeyboard a).2) :
    TransfersAlwaysFit s a ↔ PacketsFit (receivedConfig s a) (configTotal (receivedConfig s a)) := by
  obtain ⟨k, found, blank, intr, mps⟩ := s.setupKeyboard_accepted a accepted
  obtain ⟨small, packets⟩ := packetsFit_iff (configTotal_small _) found
  rw [packets, ← mps]
  rw [← mps] at small
  constructor
  · intro always
    have small : (s.setupKeyboard a).1.x.hidEpMps < 2 ^ 17 := Nat.lt_trans small (by decide)
    have first := always _ .refl
    rw [startedKeyboard_x] at first
    exact mps_le_of_armKeyboard intr small first
  · intro fits d run
    have start := armKeyboard_inv blank intr fits (s.setupKeyboard a).2.toNat
    rw [← startedKeyboard_x] at start
    exact (transferRun_inv run start).fit

/-! ## Three devices -/

/-- The driver when it looks for a keyboard. -/
def sampleSetup : SetupState where
  x := { evtRingPhys := 0x300000 }
  cmdRing := setupCmdRing 0x301000
  cmdRingPhys := 0x301000
  cmd := {}
  ep0Ring := ep0InitRing
  ep0RingPhys := 0x302000
  ep0 := { idx := 0, cycle := 0 }
  inputCtxPhys := 0x303000
  ctrlBuf := fun _ => 0
  ctrlBufPhys := 0x304000

/-- An event ring full of successful successes of the TRB at an address, for slot 1. -/
def successes (type address : ℕ) : PolledRing := fun _ _ =>
  { parameter := address, status := 1 <<< 24, control := (type <<< 10) ||| (1 <<< 24) ||| 1 }

/-- Every command and every request succeeds; the configuration descriptor has these bytes. -/
def sampleAnswers (config : List (BitVec 8)) : SetupAnswers where
  enableSlot := successes xhciTrbCmdCmpl 0x301000
  addressDevice := successes xhciTrbCmdCmpl 0x301010
  deviceDescriptor := successes xhciTrbXferEvt 0x302020
  deviceBytes := fun _ => 0
  configDescriptor := successes xhciTrbXferEvt 0x302050
  configBytes := fun i => config.getD i 0
  setConfiguration := successes xhciTrbXferEvt 0x302070
  setProtocol := successes xhciTrbXferEvt 0x302090
  setIdle := successes xhciTrbXferEvt 0x3020B0
  configureEndpoint := successes xhciTrbCmdCmpl 0x301020

/-- A keyboard whose packets have this size. -/
def keyboardConfig (mpsLow mpsHigh : BitVec 8) : List (BitVec 8) :=
  [9, 2, 25, 0, 1, 1, 0, 160, 50, 9, 4, 0, 0, 1, 3, 1, 1, 0, 7, 5, 129, 3, mpsLow, mpsHigh, 7]

theorem transfer_lengths_fit_iff_sample : TransfersAlwaysFit sampleSetup (sampleAnswers (keyboardConfig 8 0)) := by
  have accepted : 0 ≤ (sampleSetup.setupKeyboard (sampleAnswers (keyboardConfig 8 0))).2 := by decide +kernel
  have found : findHidKeyboard (receivedConfig sampleSetup (sampleAnswers (keyboardConfig 8 0)))
      (configTotal (receivedConfig sampleSetup (sampleAnswers (keyboardConfig 8 0)))) =
        some (0, ⟨0, 129, 8, 7⟩) := by decide +kernel
  have packets := (packetsFit_iff (configTotal_small _) found).2
  exact (transfer_lengths_fit_iff accepted).mpr (packets.mpr (by decide))

/-- A keyboard with packets of 512 bytes. -/
theorem transfer_lengths_overrun :
    0 ≤ (sampleSetup.setupKeyboard (sampleAnswers (keyboardConfig 0 2))).2 ∧
      ¬TransfersAlwaysFit sampleSetup (sampleAnswers (keyboardConfig 0 2)) := by
  have accepted : 0 ≤ (sampleSetup.setupKeyboard (sampleAnswers (keyboardConfig 0 2))).2 := by decide +kernel
  refine ⟨accepted, fun always => ?_⟩
  have values : findHidKeyboard (receivedConfig sampleSetup (sampleAnswers (keyboardConfig 0 2)))
      (configTotal (receivedConfig sampleSetup (sampleAnswers (keyboardConfig 0 2)))) =
        some (0, ⟨0, 129, 512, 7⟩) := by decide +kernel
  obtain ⟨k, found, _, intr, mps⟩ := sampleSetup.setupKeyboard_accepted _ accepted
  rw [values] at found
  cases found
  have fits := mps_le_of_armKeyboard intr (by rw [mps]; decide) (always _ .refl)
  rw [mps] at fits
  exact absurd fits (by decide)

/-- A descriptor that says it has 300 bytes, in `ctrl_buf`. -/
def longConfig : Memory := receivedConfig sampleSetup (sampleAnswers [9, 2, 44, 1, 1, 1, 0, 160, 50, 247, 36])

/-- The walk over it comes to offset 256. -/
theorem descriptor_reads_outside : ¬ReadsInside longConfig (configTotal longConfig) requestedBytes := by
  intro inside
  have first : HidReaches longConfig (configTotal longConfig) 9 false :=
    .next .start ⟨by decide, by decide, fun found => Bool.false_ne_true found.inHid⟩
  have second : HidReaches longConfig (configTotal longConfig) 256 false :=
    .next first ⟨by decide, by decide, fun found => Bool.false_ne_true found.inHid⟩
  have within := (readsInside_iff (configTotal_small longConfig)).mp inside 256 false second (by decide +kernel)
  have outside : ¬256 + lookedAt longConfig (configTotal longConfig) 256 false ≤ requestedBytes := by decide +kernel
  exact outside within

end RaryOS.Soundness
