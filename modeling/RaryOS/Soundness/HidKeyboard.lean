import RaryOS.Proofs.HidKeyboard

/-! # The keyboard that `find_hid_keyboard` finds

A configuration descriptor is a list of descriptors, one after the other. Which endpoint is the keyboard's
is said about the list: an interrupt endpoint towards the host that belongs to a boot keyboard, the last
interface before it. The walk over the bytes stands before the descriptors of the list one by one, and its
flag says whether the last interface was a boot keyboard.
-/

namespace RaryOS.Soundness

open RaryOS.Core RaryOS.Model

/-! ## Descriptors -/

/-- A descriptor as the USB specification has it: its first byte is its length, its second one its type. -/
structure UsbDescriptor where
  bytes : List (BitVec 8)
  header : 2 ≤ bytes.length
  bLength : (bytes.getD 0 0).toNat = bytes.length
  interface : (bytes.getD 1 0).toNat = usbDescInterface → 9 ≤ bytes.length
  endpoint : (bytes.getD 1 0).toNat = usbDescEndpoint → 7 ≤ bytes.length

namespace UsbDescriptor

def byte (d : UsbDescriptor) (k : ℕ) : ℕ := (d.bytes.getD k 0).toNat

def IsInterface (d : UsbDescriptor) : Prop := d.byte 1 = usbDescInterface

/-- `bInterfaceClass`, `bInterfaceSubClass` and `bInterfaceProtocol` of a boot keyboard. -/
def IsBootKeyboard (d : UsbDescriptor) : Prop :=
  d.IsInterface ∧ d.byte 5 = 3 ∧ d.byte 6 = 1 ∧ d.byte 7 = 1

/-- The transfer type is in the low bits of `bmAttributes`, the direction in the high bit of
`bEndpointAddress`. -/
def IsInterruptIn (d : UsbDescriptor) : Prop := d.byte 1 = usbDescEndpoint ∧ d.byte 3 % 4 = 3 ∧ 128 ≤ d.byte 2

end UsbDescriptor

/-- The bytes of a configuration descriptor. -/
def configBytes (ds : List UsbDescriptor) : List (BitVec 8) := ds.flatMap UsbDescriptor.bytes

/-- Where descriptor `n` begins. -/
def descOffset (ds : List UsbDescriptor) (n : ℕ) : ℕ := (configBytes (ds.take n)).length

/-- `cfg` points to these descriptors. -/
def ConfigHolds (cfg : Memory) (ds : List UsbDescriptor) : Prop :=
  ∀ i < (configBytes ds).length, cfg i = (configBytes ds).getD i 0

/-- Descriptor `k` is a boot keyboard, and no interface comes between it and descriptor `n`. -/
structure KeyboardBefore (ds : List UsbDescriptor) (k n : ℕ) : Prop where
  before : k < n
  keyboard : ∃ d, ds[k]? = some d ∧ d.IsBootKeyboard
  last : ∀ j d, k < j → j < n → ds[j]? = some d → ¬d.IsInterface

/-- Descriptor `n` is an interrupt endpoint of the boot keyboard `k`, towards the host. -/
structure KeyboardAt (ds : List UsbDescriptor) (k n : ℕ) : Prop where
  interface : KeyboardBefore ds k n
  endpoint : ∃ d, ds[n]? = some d ∧ d.IsInterruptIn

/-- What the descriptors of an interface and of an endpoint say. -/
def keyboardOf (interface endpoint : UsbDescriptor) : HidKeyboard where
  iface := interface.byte 2
  epAddr := endpoint.byte 2
  mps := endpoint.byte 4 + 256 * endpoint.byte 5
  interval := endpoint.byte 6

section Bytes

variable {cfg : Memory} {ds : List UsbDescriptor} {n k : ℕ} {d : UsbDescriptor}

theorem descOffset_length (ds : List UsbDescriptor) : descOffset ds ds.length = (configBytes ds).length := by
  rw [descOffset, List.take_length]

/-- A descriptor lies between the bytes before it and the bytes after it. -/
theorem configBytes_split (here : ds[n]? = some d) :
    configBytes ds = configBytes (ds.take n) ++ (d.bytes ++ configBytes (ds.drop (n + 1))) := by
  obtain ⟨inside, rfl⟩ := List.getElem?_eq_some_iff.mp here
  rw [configBytes, configBytes, configBytes, ← List.flatMap_cons, ← List.flatMap_append, List.getElem_cons_drop,
    List.take_append_drop]

theorem descOffset_succ (here : ds[n]? = some d) : descOffset ds (n + 1) = descOffset ds n + d.bytes.length := by
  rw [descOffset, List.take_add_one, here, configBytes, List.flatMap_append, List.length_append]
  rw [Option.toList_some, List.flatMap_singleton]
  rfl

theorem descOffset_le (here : ds[n]? = some d) : descOffset ds n + d.bytes.length ≤ (configBytes ds).length := by
  rw [configBytes_split here, List.length_append, List.length_append, descOffset]
  omega

theorem descByte_eq (holds : ConfigHolds cfg ds) (here : ds[n]? = some d) (inside : k < d.bytes.length) :
    descByte cfg (descOffset ds n) k = d.byte k := by
  have within := descOffset_le here
  rw [descByte, holds _ (by omega), configBytes_split here, descOffset,
    List.getD_append_right _ _ _ _ (Nat.le_add_right _ _), Nat.add_sub_cancel_left,
    List.getD_append _ _ _ _ inside]
  rfl

theorem descByte_length (holds : ConfigHolds cfg ds) (here : ds[n]? = some d) :
    descByte cfg (descOffset ds n) 0 = d.bytes.length :=
  (descByte_eq holds here (by have header := d.header; omega)).trans d.bLength

theorem interfaceAt_iff (holds : ConfigHolds cfg ds) (here : ds[n]? = some d) :
    InterfaceAt cfg (configBytes ds).length (descOffset ds n) ↔ d.IsInterface := by
  have header := d.header
  have within := descOffset_le here
  rw [InterfaceAt, descByte_eq holds here (by omega), UsbDescriptor.IsInterface]
  refine and_iff_left_of_imp fun type => ?_
  have long := d.interface type
  omega

theorem bootKeyboardAt_iff (holds : ConfigHolds cfg ds) (here : ds[n]? = some d) (interface : d.IsInterface) :
    BootKeyboardAt cfg (descOffset ds n) ↔ d.IsBootKeyboard := by
  have long := d.interface interface
  rw [BootKeyboardAt, descByte_eq holds here (by omega), descByte_eq holds here (by omega),
    descByte_eq holds here (by omega), UsbDescriptor.IsBootKeyboard]
  exact (and_iff_right interface).symm

theorem interruptInAt_iff (holds : ConfigHolds cfg ds) (here : ds[n]? = some d) :
    InterruptInAt cfg (configBytes ds).length (descOffset ds n) ↔ d.IsInterruptIn := by
  have header := d.header
  have within := descOffset_le here
  rw [InterruptInAt, UsbDescriptor.IsInterruptIn, descByte_eq holds here (by omega)]
  refine and_congr_right fun type => ?_
  have long := d.endpoint type
  rw [descByte_eq holds here (by omega), descByte_eq holds here (by omega)]
  exact and_iff_right (by omega)

theorem endpointOut_eq (holds : ConfigHolds cfg ds) (here : ds[n]? = some d) (endpoint : d.IsInterruptIn)
    {interface : UsbDescriptor} {out : HidKeyboard} (iface : out.iface = interface.byte 2) :
    endpointOut cfg (descOffset ds n) out = keyboardOf interface d := by
  have long := d.endpoint endpoint.1
  rw [endpointOut, keyboardOf, iface, descByte_eq holds here (by omega), descByte_eq holds here (by omega),
    descByte_eq holds here (by omega), descByte_eq holds here (by omega)]

end Bytes

/-! ## The flag -/

section Flag

variable {ds : List UsbDescriptor} {n k : ℕ} {d : UsbDescriptor}

theorem KeyboardBefore.unique {k' : ℕ} (left : KeyboardBefore ds k n) (right : KeyboardBefore ds k' n) : k = k' := by
  obtain ⟨d, here, keyboard⟩ := left.keyboard
  obtain ⟨d', here', keyboard'⟩ := right.keyboard
  rcases Nat.lt_trichotomy k k' with before | same | after
  · exact absurd keyboard'.1 (left.last k' d' before right.before here')
  · exact same
  · exact absurd keyboard.1 (right.last k d after left.before here)

/-- After an interface it is the one that counts. -/
theorem keyboardBefore_succ_of_interface (here : ds[n]? = some d) (interface : d.IsInterface) :
    KeyboardBefore ds k (n + 1) ↔ k = n ∧ d.IsBootKeyboard := by
  constructor
  · rintro ⟨before, ⟨d', there, keyboard⟩, last⟩
    rcases Nat.lt_succ_iff_lt_or_eq.mp before with earlier | rfl
    · exact absurd interface (last n d earlier (Nat.lt_succ_self n) here)
    · rw [here] at there
      cases there
      exact ⟨rfl, keyboard⟩
  · rintro ⟨rfl, keyboard⟩
    exact ⟨Nat.lt_succ_self k, ⟨d, here, keyboard⟩, fun j _ after before => by omega⟩

/-- Any other descriptor changes nothing. -/
theorem keyboardBefore_succ_of_other (here : ds[n]? = some d) (other : ¬d.IsInterface) :
    KeyboardBefore ds k (n + 1) ↔ KeyboardBefore ds k n := by
  constructor
  · rintro ⟨before, ⟨d', there, keyboard⟩, last⟩
    refine ⟨?_, ⟨d', there, keyboard⟩, fun j e after inside => last j e after (by omega)⟩
    rcases Nat.lt_succ_iff_lt_or_eq.mp before with earlier | rfl
    · exact earlier
    · rw [here] at there
      cases there
      exact absurd keyboard.1 other
  · rintro ⟨before, keyboard, last⟩
    refine ⟨by omega, keyboard, fun j e after inside at_j => ?_⟩
    rcases Nat.lt_succ_iff_lt_or_eq.mp inside with earlier | rfl
    · exact last j e after earlier at_j
    · rw [here] at at_j
      cases at_j
      exact other

end Flag

/-! ## The walk over the list -/

/-- The state of the loop before descriptor `n`. -/
structure ScanAt (ds : List UsbDescriptor) (n : ℕ) (s : HidScan) : Prop where
  off : s.off = descOffset ds n
  inHid : s.inHidIface = true ↔ ∃ k, KeyboardBefore ds k n
  iface : ∀ k d, KeyboardBefore ds k n → ds[k]? = some d → s.out.iface = d.byte 2

section Walk

variable {cfg : Memory} {ds : List UsbDescriptor} {n k : ℕ} {d : UsbDescriptor} {s : HidScan}

theorem scanAt_zero (ds : List UsbDescriptor) : ScanAt ds 0 {} where
  off := rfl
  inHid := by
    constructor
    · intro flag
      cases flag
    · rintro ⟨k, keyboard⟩
      exact absurd keyboard.before (Nat.not_lt_zero k)
  iface k _ keyboard := absurd keyboard.before (Nat.not_lt_zero k)

/-- The walk stops at exactly the endpoint of a keyboard. -/
theorem keyboardEndpointAt_iff (holds : ConfigHolds cfg ds) (scan : ScanAt ds n s) (here : ds[n]? = some d) :
    KeyboardEndpointAt cfg (configBytes ds).length s.off s.inHidIface ↔ ∃ k, KeyboardAt ds k n := by
  rw [scan.off]
  constructor
  · rintro ⟨inHid, _, endpoint⟩
    obtain ⟨k, interface⟩ := scan.inHid.mp inHid
    exact ⟨k, interface, d, here, (interruptInAt_iff holds here).mp endpoint⟩
  · rintro ⟨k, interface, d', there, endpoint⟩
    rw [here] at there
    cases there
    refine ⟨scan.inHid.mpr ⟨k, interface⟩, ?_, (interruptInAt_iff holds here).mpr endpoint⟩
    have header := d.header
    rw [descByte_length holds here]
    omega

/-- Past a descriptor that is not the endpoint of a keyboard the walk goes on. -/
theorem scanAt_succ (holds : ConfigHolds cfg ds) (small : (configBytes ds).length + 1024 ≤ 2 ^ 32)
    (scan : ScanAt ds n s) (here : ds[n]? = some d) (other : ∀ k, ¬KeyboardAt ds k n) :
    ∃ next, findHidKeyboardBody cfg (configBytes ds).length s = .inl next ∧ ScanAt ds (n + 1) next := by
  have header := d.header
  have within := descOffset_le here
  have length := descByte_length holds here
  have continues : HidContinues cfg (configBytes ds).length s.off s.inHidIface := by
    refine ⟨by rw [scan.off]; omega, by rw [scan.off, length]; omega, fun found => ?_⟩
    obtain ⟨k, keyboard⟩ := (keyboardEndpointAt_iff holds scan here).mp found
    exact other k keyboard
  obtain ⟨out, goes, ofInterface, ofOther⟩ := findHidKeyboardBody_continues (by rw [scan.off]; omega) continues
  have next : s.off + descByte cfg s.off 0 = descOffset ds (n + 1) := by
    rw [scan.off, length, descOffset_succ here]
  have isInterface : InterfaceAt cfg (configBytes ds).length s.off ↔ d.IsInterface := by
    rw [scan.off]
    exact interfaceAt_iff holds here
  refine ⟨_, goes, ?_⟩
  by_cases interface : d.IsInterface
  · have isBoot : BootKeyboardAt cfg s.off ↔ d.IsBootKeyboard := by
      rw [scan.off]
      exact bootKeyboardAt_iff holds here interface
    rw [hidFlag, if_pos (isInterface.mpr interface)]
    refine ⟨next, ?_, fun k d' keyboard there => ?_⟩
    · simp only [decide_eq_true_eq, isBoot, keyboardBefore_succ_of_interface here interface, exists_eq_left]
    · obtain ⟨rfl, boot⟩ := (keyboardBefore_succ_of_interface here interface).mp keyboard
      rw [here] at there
      cases there
      have long := d.interface interface
      rw [← descByte_eq holds here (by omega), ← scan.off]
      exact ofInterface (isInterface.mpr interface) (isBoot.mpr boot)
  · have absent : ¬InterfaceAt cfg (configBytes ds).length s.off := fun present => interface (isInterface.mp present)
    rw [hidFlag, if_neg absent]
    refine ⟨next, ?_, fun k d' keyboard there => ?_⟩
    · simp only [scan.inHid, keyboardBefore_succ_of_other here interface]
    · apply (congrArg HidKeyboard.iface (ofOther absent)).trans
      exact scan.iface k d' ((keyboardBefore_succ_of_other here interface).mp keyboard) there

/-- As long as no endpoint of a keyboard has been passed, the walk comes to every descriptor. -/
theorem reaches_scanAt (holds : ConfigHolds cfg ds) (small : (configBytes ds).length + 1024 ≤ 2 ^ 32)
    (inside : n ≤ ds.length) (none : ∀ k n', n' < n → ¬KeyboardAt ds k n') :
    ∃ s, Reaches (findHidKeyboardBody cfg (configBytes ds).length) {} s ∧ ScanAt ds n s := by
  induction n with
  | zero => exact ⟨{}, .refl, scanAt_zero ds⟩
  | succ n ih =>
    obtain ⟨s, reaches, scan⟩ := ih (by omega) fun k n' before => none k n' (by omega)
    obtain ⟨next, goes, scanNext⟩ := scanAt_succ holds small scan
      (List.getElem?_eq_getElem (show n < ds.length by omega)) fun k => none k n (Nat.lt_succ_self n)
    exact ⟨next, reaches.tail goes, scanNext⟩

/-- `find_hid_keyboard` on a list without the endpoint of a keyboard. -/
theorem findHidKeyboard_absent (holds : ConfigHolds cfg ds) (small : (configBytes ds).length + 1024 ≤ 2 ^ 32)
    (none : ∀ k n, ¬KeyboardAt ds k n) :
    ∃ out, findHidKeyboard cfg (configBytes ds).length = some (-1, out) := by
  obtain ⟨s, reaches, scan⟩ := reaches_scanAt holds small (le_refl ds.length) fun k n _ => none k n
  have ending : s.off = (configBytes ds).length := scan.off.trans (descOffset_length ds)
  have stops : findHidKeyboardBody cfg (configBytes ds).length s = .inr (-1, s.out) := by
    rw [findHidKeyboardBody_eq (by omega), if_neg (by omega)]
  refine ⟨s.out, ?_⟩
  rw [findHidKeyboard_eq_some_iff small, reaches.returns_iff]
  exact .of_stop stops

/-- `find_hid_keyboard` on a list whose first endpoint of a keyboard is descriptor `n`. -/
theorem findHidKeyboard_present (holds : ConfigHolds cfg ds) (small : (configBytes ds).length + 1024 ≤ 2 ^ 32)
    (found : KeyboardAt ds k n) (first : ∀ k' n', n' < n → ¬KeyboardAt ds k' n') {interface endpoint : UsbDescriptor}
    (atK : ds[k]? = some interface) (atN : ds[n]? = some endpoint) :
    findHidKeyboard cfg (configBytes ds).length = some (0, keyboardOf interface endpoint) := by
  have inside : n < ds.length := (List.getElem?_eq_some_iff.mp atN).1
  obtain ⟨s, reaches, scan⟩ := reaches_scanAt holds small inside.le first
  have within := descOffset_le atN
  obtain ⟨_, there, isEndpoint⟩ := found.endpoint
  rw [atN] at there
  cases there
  have stops : ¬HidContinues cfg (configBytes ds).length s.off s.inHidIface := fun continues =>
    continues.other ((keyboardEndpointAt_iff holds scan atN).mpr ⟨k, found⟩)
  rcases findHidKeyboardBody_stops (by rw [scan.off]; omega) stops with ⟨_, stops⟩ | ⟨absent, _⟩
  · rw [findHidKeyboard_eq_some_iff small, reaches.returns_iff]
    rw [scan.off, endpointOut_eq holds atN isEndpoint (scan.iface k interface found.interface atK)] at stops
    exact .of_stop stops
  · exact absurd ((keyboardEndpointAt_iff holds scan atN).mpr ⟨k, found⟩) absent

end Walk

/-- For every list of descriptors: `find_hid_keyboard` returns 0 exactly when a boot keyboard has an interrupt
endpoint towards the host, and then the values of the first such endpoint and of its interface. The caller's
total length has 16 bits. -/
theorem findHidKeyboard_spec {cfg : Memory} {ds : List UsbDescriptor} (holds : ConfigHolds cfg ds)
    (small : (configBytes ds).length + 1024 ≤ 2 ^ 32) :
    ∃ result out, findHidKeyboard cfg (configBytes ds).length = some (result, out) ∧
      (result = 0 ∨ result = -1) ∧
      (result = 0 ↔ ∃ k n, KeyboardAt ds k n) ∧
      ∀ k n interface endpoint, KeyboardAt ds k n → (∀ k' n', KeyboardAt ds k' n' → n ≤ n') →
        ds[k]? = some interface → ds[n]? = some endpoint → out = keyboardOf interface endpoint := by
  by_cases present : ∃ n k, KeyboardAt ds k n
  · classical
    obtain ⟨k, found⟩ := Nat.find_spec present
    have first : ∀ k' n', n' < Nat.find present → ¬KeyboardAt ds k' n' :=
      fun k' n' before keyboard => Nat.find_min present before ⟨k', keyboard⟩
    obtain ⟨interface, atK, _⟩ := found.interface.keyboard
    obtain ⟨endpoint, atN, _⟩ := found.endpoint
    refine ⟨0, _, findHidKeyboard_present holds small found first atK atN, Or.inl rfl,
      iff_of_true rfl ⟨k, _, found⟩, fun k' n' interface' endpoint' found' least atK' atN' => ?_⟩
    obtain rfl : n' = Nat.find present :=
      Nat.le_antisymm (least k _ found) (Nat.find_min' present ⟨k', found'⟩)
    obtain rfl := found'.interface.unique found.interface
    rw [atK] at atK'
    rw [atN] at atN'
    cases atK'
    cases atN'
    rfl
  · have none : ∀ k n, ¬KeyboardAt ds k n := fun k n found => present ⟨n, k, found⟩
    obtain ⟨out, absent⟩ := findHidKeyboard_absent holds small none
    refine ⟨-1, out, absent, Or.inr rfl, ?_, fun k n _ _ found => absurd found (none k n)⟩
    exact iff_of_false (by decide) fun ⟨k, n, found⟩ => none k n found

/-! ## A keyboard with one interface -/

/-- The descriptors of the configuration, of the interface, of the reports and of the endpoint. -/
def sampleConfig : List UsbDescriptor :=
  [⟨[9, 2, 34, 0, 1, 1, 0, 160, 50], by decide, by decide, by decide, by decide⟩,
    ⟨[9, 4, 0, 0, 1, 3, 1, 1, 0], by decide, by decide, by decide, by decide⟩,
    ⟨[9, 33, 17, 1, 0, 1, 34, 63, 0], by decide, by decide, by decide, by decide⟩,
    ⟨[7, 5, 129, 3, 8, 0, 7], by decide, by decide, by decide, by decide⟩]

def sampleCfg : Memory := fun i => (configBytes sampleConfig).getD i 0

theorem sampleConfig_keyboard : KeyboardAt sampleConfig 1 3 where
  interface := by
    refine ⟨by decide, ⟨_, rfl, rfl, rfl, rfl, rfl⟩, fun j d after before there => ?_⟩
    obtain rfl : j = 2 := by omega
    cases there
    exact (by decide : ¬(33 = usbDescInterface))
  endpoint := ⟨_, rfl, rfl, rfl, by decide⟩

theorem findHidKeyboard_spec_sample :
    ∃ out, findHidKeyboard sampleCfg (configBytes sampleConfig).length = some (0, out) := by
  obtain ⟨result, out, returns, _, found, _⟩ := @findHidKeyboard_spec sampleCfg sampleConfig
    (fun _ _ => rfl) (by decide)
  obtain rfl := found.mpr ⟨1, 3, sampleConfig_keyboard⟩
  exact ⟨out, returns⟩

end RaryOS.Soundness
