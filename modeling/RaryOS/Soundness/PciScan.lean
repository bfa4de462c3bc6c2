import RaryOS.Model.Pci
import RaryOS.Model.Usb

/-! # Finding a PCI device

The scan goes over 256 buses of 32 slots of 8 functions. It skips slots whose function 0 is absent, and looks at
the other functions only where function 0 has the multifunction bit. What it returns is the first function that
can be discovered in this way and that matches. The BAR is decoded in two files, to the same address.
-/

namespace RaryOS.Soundness

open RaryOS.Model

/-- A function of a slot of a bus. -/
structure PciPlace where
  bus : ℕ
  slot : ℕ
  func : ℕ
  busBound : bus < 256
  slotBound : slot < 32
  funcBound : func < 8

namespace PciPlace

variable (space : ConfigSpace) (p : PciPlace)

/-- Bus, slot, function order. -/
def Before (q p : PciPlace) : Prop :=
  q.bus < p.bus ∨ q.bus = p.bus ∧ (q.slot < p.slot ∨ q.slot = p.slot ∧ q.func < p.func)

/-- Function 0 of the slot. -/
def first : PciPlace := { p with func := 0, funcBound := by decide }

/-- A double word of the configuration space. -/
def config (offset : BitVec 8) : BitVec 32 :=
  readConfig space (BitVec.ofNat 8 p.bus) (BitVec.ofNat 8 p.slot) (BitVec.ofNat 8 p.func) offset

def vendor : BitVec 16 := (p.config space 0x00).extractLsb' 0 16
def device : BitVec 16 := (p.config space 0x00).extractLsb' 16 16
def classCode : BitVec 8 := (p.config space 0x08).extractLsb' 24 8
def subclass : BitVec 8 := (p.config space 0x08).extractLsb' 16 8
def progIf : BitVec 8 := (p.config space 0x08).extractLsb' 8 8

/-- The function exists. -/
def Exists : Prop := p.vendor space ≠ 0xFFFF

/-- The header has the multifunction bit. -/
def Multifunction : Prop := (p.config space 0x0C).getLsbD 23 = true

/-- Function 0 of a slot whose function 0 exists, or another existing function of such a slot that is
multifunction. -/
def Discoverable : Prop := p.first.Exists space ∧ (p.func = 0 ∨ p.Exists space ∧ p.first.Multifunction space)

/-- The signature of the type. -/
def Matches : DeviceType → Prop
  | .xhci => p.classCode space = 0x0C ∧ p.subclass space = 0x03 ∧ p.progIf space = 0x30
  | .ehci => p.classCode space = 0x0C ∧ p.subclass space = 0x03 ∧ p.progIf space = 0x20
  | .ahci => p.classCode space = 0x01 ∧ p.subclass space = 0x06
  | .nvme => p.classCode space = 0x01 ∧ p.subclass space = 0x08
  | .intelE1000 => p.vendor space = 0x8086 ∧ p.device space = 0x100E

/-- What the scan looks for. -/
def Hit (type : DeviceType) : Prop := p.Discoverable space ∧ p.Matches space type

/-- The description of the function: the address is the one that `pci_read_bar64` computes. -/
structure Describes (d : PciDevice) : Prop where
  bus : d.bus = BitVec.ofNat 8 p.bus
  slot : d.slot = BitVec.ofNat 8 p.slot
  func : d.func = BitVec.ofNat 8 p.func
  vendorId : d.vendorId = p.vendor space
  deviceId : d.deviceId = p.device space
  mmioBase : d.mmioBase.toNat = (pciReadBar64 (fun offset =>
    (pciRead32 space (BitVec.ofNat 8 p.bus) (BitVec.ofNat 8 p.slot) (BitVec.ofNat 8 p.func)
      (BitVec.ofNat 8 offset)).toNat) 0x10).1

end PciPlace

open PciPlace

section Fields

theorem extract_word (x : BitVec 32) (k : ℕ) : (x >>> k &&& 0xFFFF).setWidth 16 = x.extractLsb' k 16 := by
  apply BitVec.eq_of_toNat_eq
  rw [BitVec.toNat_setWidth, BitVec.toNat_and, BitVec.toNat_ushiftRight, BitVec.extractLsb'_toNat,
    show (0xFFFF : BitVec 32).toNat = 2 ^ 16 - 1 from rfl, Nat.and_two_pow_sub_one_eq_mod, Nat.mod_mod]

theorem extract_byte (x : BitVec 32) (k : ℕ) : (x >>> k &&& 0xFF).setWidth 8 = x.extractLsb' k 8 := by
  apply BitVec.eq_of_toNat_eq
  rw [BitVec.toNat_setWidth, BitVec.toNat_and, BitVec.toNat_ushiftRight, BitVec.extractLsb'_toNat,
    show (0xFF : BitVec 32).toNat = 2 ^ 8 - 1 from rfl, Nat.and_two_pow_sub_one_eq_mod, Nat.mod_mod]

theorem low_word_eq (x : BitVec 32) : x &&& 0xFFFF = 0xFFFF ↔ x.extractLsb' 0 16 = 0xFFFF := by
  have low : (x &&& 0xFFFF).toNat = (x.extractLsb' 0 16).toNat := by
    rw [BitVec.toNat_and, show (0xFFFF : BitVec 32).toNat = 2 ^ 16 - 1 from rfl, Nat.and_two_pow_sub_one_eq_mod,
      BitVec.extractLsb'_toNat, Nat.shiftRight_zero]
  rw [← BitVec.toNat_inj, ← BitVec.toNat_inj, low]
  rfl

theorem bit23_iff (x : BitVec 32) : x >>> 16 &&& 0x80 ≠ 0 ↔ x.getLsbD 23 = true := by
  have bit : (x >>> 16 &&& 0x80).toNat = (x.getLsbD 23).toNat * 2 ^ 7 := by
    rw [BitVec.toNat_and, BitVec.toNat_ushiftRight, show (0x80 : BitVec 32).toNat = 2 ^ 7 from rfl, Nat.and_two_pow,
      Nat.testBit_shiftRight]
    rfl
  rw [← BitVec.toNat_inj.ne, bit]
  cases x.getLsbD 23 <;> decide

end Fields

section Answers

/-- The fields of the address do not overlap. -/
theorem configAddress_toNat (p : PciPlace) (k : Fin 64) :
    (configAddress (BitVec.ofNat 8 p.bus) (BitVec.ofNat 8 p.slot) (BitVec.ofNat 8 p.func)
        (BitVec.ofNat 8 (4 * k))).toNat =
      2 ^ 31 + p.bus * 2 ^ 16 + p.slot * 2 ^ 11 + p.func * 2 ^ 8 + 4 * k := by
  have busBound := p.busBound
  have slotBound := p.slotBound
  have funcBound := p.funcBound
  have shifted : ∀ n shift : ℕ, n < 2 ^ 8 → n * 2 ^ shift < 2 ^ 32 →
      ((BitVec.ofNat 8 n).setWidth 32 <<< shift).toNat = n * 2 ^ shift := by
    intro n shift byte fits
    rw [BitVec.toNat_shiftLeft, BitVec.toNat_setWidth, BitVec.toNat_ofNat, Nat.mod_eq_of_lt byte,
      Nat.mod_eq_of_lt (byte.trans (by decide)), Nat.shiftLeft_eq, Nat.mod_eq_of_lt fits]
  have offset : ((BitVec.ofNat 8 (4 * k) &&& 0xFC).setWidth 32).toNat = 4 * k := by
    revert k
    decide
  have step := fun (i a b : ℕ) (small : b < 2 ^ i) => (Nat.two_pow_add_eq_or_of_lt small a).symm
  rw [configAddress, BitVec.toNat_or, BitVec.toNat_or, BitVec.toNat_or, BitVec.toNat_or,
    shifted _ _ (by omega) (by omega),
    shifted _ _ (by omega) (by omega), shifted _ _ (by omega) (by omega), offset]
  have bus := step 24 (2 ^ 7) (p.bus * 2 ^ 16) (by omega)
  have slot := step 16 (2 ^ 15 + p.bus) (p.slot * 2 ^ 11) (by omega)
  have func := step 11 (2 ^ 20 + p.bus * 2 ^ 5 + p.slot) (p.func * 2 ^ 8) (by omega)
  have last := step 8 (2 ^ 23 + p.bus * 2 ^ 8 + p.slot * 2 ^ 3 + p.func) (4 * k) (by omega)
  rw [show (1 <<< 31 : BitVec 32).toNat = 2 ^ 24 * 2 ^ 7 from rfl, bus,
    show 2 ^ 24 * 2 ^ 7 + p.bus * 2 ^ 16 = 2 ^ 16 * (2 ^ 15 + p.bus) by omega, slot,
    show 2 ^ 16 * (2 ^ 15 + p.bus) + p.slot * 2 ^ 11 = 2 ^ 11 * (2 ^ 20 + p.bus * 2 ^ 5 + p.slot) by omega, func,
    show 2 ^ 11 * (2 ^ 20 + p.bus * 2 ^ 5 + p.slot) + p.func * 2 ^ 8 =
      2 ^ 8 * (2 ^ 23 + p.bus * 2 ^ 8 + p.slot * 2 ^ 3 + p.func) by omega, last]
  omega

/-- Any answers for the double words of the functions are those of a configuration space. -/
theorem exists_configSpace (answer : PciPlace → Fin 64 → BitVec 32) :
    ∃ space : ConfigSpace, ∀ p k, p.config space (BitVec.ofNat 8 (4 * (k : Fin 64))) = answer p k := by
  refine ⟨fun address => answer
    ⟨address.toNat / 2 ^ 16 % 256, address.toNat / 2 ^ 11 % 32, address.toNat / 2 ^ 8 % 8,
      Nat.mod_lt _ (by decide), Nat.mod_lt _ (by decide), Nat.mod_lt _ (by decide)⟩
    ⟨address.toNat / 4 % 64, Nat.mod_lt _ (by decide)⟩, ?_⟩
  intro p k
  have busBound := p.busBound
  have slotBound := p.slotBound
  have funcBound := p.funcBound
  rw [config, readConfig]
  congr 1
  · congr 1 <;> rw [configAddress_toNat] <;> omega
  · apply Fin.ext
    dsimp only
    rw [configAddress_toNat]
    omega

end Answers

section Bar

/-- The two decoders of a BAR agree. -/
theorem mmioBase_eq (space : ConfigSpace) (bus slot func : BitVec 8) :
    (mmioBase space bus slot func).toNat =
      (pciReadBar64 (fun offset => (pciRead32 space bus slot func (BitVec.ofNat 8 offset)).toNat) 0x10).1 := by
  have first : readConfig space bus slot func 0x10 = pciRead32 space bus slot func (BitVec.ofNat 8 0x10) := rfl
  have second : readConfig space bus slot func 0x14 = pciRead32 space bus slot func (BitVec.ofNat 8 (0x10 + 4)) := rfl
  rw [mmioBase, pciReadBar64, first, second]
  generalize pciRead32 space bus slot func (BitVec.ofNat 8 0x10) = bar0
  generalize pciRead32 space bus slot func (BitVec.ofNat 8 (0x10 + 4)) = bar1
  have isIo : bar0 &&& 0x1 = 0 ↔ bar0.toNat &&& 1 = 0 := by
    rw [← BitVec.toNat_inj, BitVec.toNat_and]
    rfl
  have isWide : bar0 >>> 1 &&& 0x3 = 2 ↔ bar0.toNat / 2 &&& 0x3 = 0x2 := by
    rw [← BitVec.toNat_inj, BitVec.toNat_and, BitVec.toNat_ushiftRight, Nat.shiftRight_eq_div_pow, Nat.pow_one]
    rfl
  have short := bar0.isLt
  have shortHigh := bar1.isLt
  simp only [isIo, isWide, ne_eq, ite_not]
  split
  · split
    · have shifted : bar1.toNat % 2 ^ 64 * 2 ^ 32 % 2 ^ 64 = bar1.toNat * 2 ^ 32 := by omega
      rw [BitVec.toNat_or, BitVec.toNat_shiftLeft, BitVec.toNat_setWidth, BitVec.toNat_and, BitVec.toNat_setWidth,
        Nat.shiftLeft_eq, shifted, Nat.mod_eq_of_lt (by omega)]
      rfl
    · rw [BitVec.toNat_setWidth, Nat.mod_eq_of_lt (by omega)]
      exact BitVec.toNat_and ..
  · rw [BitVec.toNat_setWidth, Nat.mod_eq_of_lt (by omega)]
    exact BitVec.toNat_and ..

end Bar

section Scan

variable {space : ConfigSpace} {type : DeviceType} {sig : DeviceSignature} {p : PciPlace}

/-- The signature in the table is that of the type. -/
theorem isMatch_iff (member : lookupTable.find? (fun item => item.type = type) = some sig) :
    isMatch type sig (p.config space 0x00) (p.config space 0x08) = true ↔ p.Matches space type := by
  have low : (p.config space 0x00 &&& 0xFFFF).setWidth 16 = p.vendor space := extract_word _ 0
  rw [isMatch, low, extract_word, extract_byte, extract_byte, extract_byte]
  change _ = some sig at member
  cases type <;> cases member <;>
    simp [Matches, device, classCode, subclass, progIf, and_assoc]

/-- A function that is there and matches gives its description. -/
theorem probeFunction_of_matches (member : lookupTable.find? (fun item => item.type = type) = some sig)
    (present : p.Exists space) (same : p.Matches space type) :
    ∃ d, probeFunction space type sig (BitVec.ofNat 8 p.bus) (BitVec.ofNat 8 p.slot) (BitVec.ofNat 8 p.func) = some d ∧
      p.Describes space d := by
  have there : ¬p.config space 0x00 &&& 0xFFFF = 0xFFFF := fun absent => present ((low_word_eq _).mp absent)
  have found := (isMatch_iff member).mpr same
  unfold config at there found
  rw [probeFunction, if_neg there, if_pos found]
  exact ⟨_, rfl, rfl, rfl, rfl, extract_word _ 0, extract_word _ 16, mmioBase_eq ..⟩

theorem probeFunction_of_other (member : lookupTable.find? (fun item => item.type = type) = some sig)
    (other : ¬(p.Exists space ∧ p.Matches space type)) :
    probeFunction space type sig (BitVec.ofNat 8 p.bus) (BitVec.ofNat 8 p.slot) (BitVec.ofNat 8 p.func) = none := by
  rw [probeFunction]
  change (if p.config space 0x00 &&& 0xFFFF = 0xFFFF then none
    else if isMatch type sig (p.config space 0x00) (p.config space 0x08) then some _ else none) = none
  split
  · rfl
  · next there =>
    apply if_neg
    intro same
    exact other ⟨fun absent => there ((low_word_eq _).mpr absent), (isMatch_iff member).mp same⟩

/-- What one round of the three loops finds. -/
def candidate (space : ConfigSpace) (type : DeviceType) (sig : DeviceSignature) (bus slot func : ℕ) :
    Option PciDevice :=
  if readConfig space (BitVec.ofNat 8 bus) (BitVec.ofNat 8 slot) 0 0x00 &&& 0xFFFF = 0xFFFF then none
  else if func = 0 ∨ readConfig space (BitVec.ofNat 8 bus) (BitVec.ofNat 8 slot) 0 0x0C >>> 16 &&& 0x80 ≠ 0 then
    probeFunction space type sig (BitVec.ofNat 8 bus) (BitVec.ofNat 8 slot) (BitVec.ofNat 8 func)
  else none

theorem scanFunctions_multi (bus slot : BitVec 8) (funcs : List ℕ) :
    scanFunctions space type sig bus slot true funcs =
      funcs.findSome? fun func => probeFunction space type sig bus slot (BitVec.ofNat 8 func) := by
  induction funcs with
  | nil => rfl
  | cons func rest ih =>
    rw [scanFunctions, if_neg (by rintro ⟨-, single⟩; cases single), List.findSome?_cons, ih]
    cases probeFunction space type sig bus slot (BitVec.ofNat 8 func) <;> rfl

/-- The loop leaves a slot after function 0 if this is not multifunction. -/
theorem scanFunctions_single (bus slot : BitVec 8) :
    scanFunctions space type sig bus slot false (List.range 8) = probeFunction space type sig bus slot 0 := by
  have first : List.range 8 = 0 :: List.range' 1 7 := rfl
  rw [first, scanFunctions]
  cases probeFunction space type sig bus slot 0 <;> rfl

theorem scanSlot_eq (bus slot : ℕ) :
    scanSlot space type sig (BitVec.ofNat 8 bus) (BitVec.ofNat 8 slot) =
      (List.range 8).findSome? (candidate space type sig bus slot) := by
  rw [scanSlot]
  split
  · next absent =>
    symm
    apply List.findSome?_eq_none_iff.mpr
    intro func _
    exact if_pos absent
  · next there =>
    rcases Decidable.em (readConfig space (BitVec.ofNat 8 bus) (BitVec.ofNat 8 slot) 0 0x0C >>> 16 &&& 0x80 = 0) with
      single | multi
    · rw [decide_eq_false (not_not.mpr single), scanFunctions_single]
      have others : (List.range' 1 7).findSome? (candidate space type sig bus slot) = none := by
        apply List.findSome?_eq_none_iff.mpr
        intro func inside
        have positive := (List.mem_range'_1.mp inside).1
        rw [candidate, if_neg there, if_neg (by rintro (zero | multi); omega; exact multi single)]
      have zero : candidate space type sig bus slot 0 =
          probeFunction space type sig (BitVec.ofNat 8 bus) (BitVec.ofNat 8 slot) 0 := by
        rw [candidate, if_neg there, if_pos (Or.inl rfl)]
        rfl
      rw [show List.range 8 = 0 :: List.range' 1 7 from rfl, List.findSome?_cons, others, zero]
      cases probeFunction space type sig (BitVec.ofNat 8 bus) (BitVec.ofNat 8 slot) 0 <;> rfl
    · rw [decide_eq_true multi, scanFunctions_multi]
      congr 1
      apply funext
      intro func
      rw [candidate, if_neg there, if_pos (Or.inr multi)]

theorem candidate_of_hit (member : lookupTable.find? (fun item => item.type = type) = some sig)
    (hit : p.Hit space type) :
    ∃ d, candidate space type sig p.bus p.slot p.func = some d ∧ p.Describes space d := by
  obtain ⟨⟨slotThere, reached⟩, same⟩ := hit
  have there : ¬p.first.config space 0x00 &&& 0xFFFF = 0xFFFF := fun absent => slotThere ((low_word_eq _).mp absent)
  have present : p.Exists space := by
    rcases reached with zero | ⟨present, -⟩
    · have self : p.first = p := by rw [first]; congr 1; exact zero.symm
      exact self ▸ slotThere
    · exact present
  have goes : p.func = 0 ∨ p.first.config space 0x0C >>> 16 &&& 0x80 ≠ 0 :=
    reached.imp_right fun multi => (bit23_iff _).mpr multi.2
  obtain ⟨d, found, describes⟩ := probeFunction_of_matches member present same
  refine ⟨d, ?_, describes⟩
  rw [candidate]
  exact (if_neg there).trans ((if_pos goes).trans found)

theorem candidate_of_miss (member : lookupTable.find? (fun item => item.type = type) = some sig)
    (miss : ¬p.Hit space type) : candidate space type sig p.bus p.slot p.func = none := by
  rw [candidate]
  split
  · rfl
  · next there =>
    have slotThere : p.first.Exists space := fun absent => there ((low_word_eq _).mpr absent)
    split
    · next reached =>
      apply probeFunction_of_other member
      rintro ⟨present, same⟩
      exact miss ⟨⟨slotThere, reached.imp_right fun multi => ⟨present, (bit23_iff _).mp multi⟩⟩, same⟩
    · rfl

end Scan

section First

/-- A scan over a range stops at the first index that gives something. -/
theorem findSome?_range_eq_some {α : Type*} {f : ℕ → Option α} {n : ℕ} {a : α} :
    (List.range n).findSome? f = some a ↔ ∃ i < n, f i = some a ∧ ∀ j < i, f j = none := by
  induction n with
  | zero => simp
  | succ n ih =>
    rw [List.range_succ, List.findSome?_append, Option.or_eq_some_iff, ih, List.findSome?_eq_none_iff,
      List.findSome?_cons, List.findSome?_nil]
    constructor
    · rintro (⟨i, inside, found, before⟩ | ⟨before, found⟩)
      · exact ⟨i, Nat.lt_succ_of_lt inside, found, before⟩
      · refine ⟨n, Nat.lt_succ_self n, ?_, fun j inside => before j (List.mem_range.mpr inside)⟩
        cases last : f n with
        | none => rw [last] at found; cases found
        | some b => rw [last] at found; exact found
    · rintro ⟨i, inside, found, before⟩
      rcases Nat.lt_succ_iff_lt_or_eq.mp inside with lower | rfl
      · exact Or.inl ⟨i, lower, found, before⟩
      · exact Or.inr ⟨fun j member => before j (List.mem_range.mp member), by rw [found]⟩

variable {space : ConfigSpace} {type : DeviceType} {sig : DeviceSignature} {d : PciDevice}
  (member : lookupTable.find? (fun item => item.type = type) = some sig)

include member

theorem candidate_eq_none_iff (p : PciPlace) :
    candidate space type sig p.bus p.slot p.func = none ↔ ¬p.Hit space type := by
  refine ⟨fun nothing hit => ?_, candidate_of_miss member⟩
  obtain ⟨d, found, -⟩ := candidate_of_hit member hit
  rw [found] at nothing
  cases nothing

/-- Loops that find nothing have seen every function. -/
theorem no_hit_of_scan
    (scan : ((List.range 256).findSome? fun bus => (List.range 32).findSome? fun slot =>
      (List.range 8).findSome? (candidate space type sig bus slot)) = none) (p : PciPlace) : ¬p.Hit space type := by
  rw [← candidate_eq_none_iff member p]
  have slots := List.findSome?_eq_none_iff.mp scan p.bus (List.mem_range.mpr p.busBound)
  have funcs := List.findSome?_eq_none_iff.mp slots p.slot (List.mem_range.mpr p.slotBound)
  exact List.findSome?_eq_none_iff.mp funcs p.func (List.mem_range.mpr p.funcBound)

/-- Loops that find a function stop at the first that there is. -/
theorem first_hit_of_scan
    (scan : ((List.range 256).findSome? fun bus => (List.range 32).findSome? fun slot =>
      (List.range 8).findSome? (candidate space type sig bus slot)) = some d) :
    ∃ p : PciPlace, p.Hit space type ∧ (∀ q : PciPlace, q.Before p → ¬q.Hit space type) ∧ p.Describes space d := by
  obtain ⟨bus, busBound, inBus, busBefore⟩ := findSome?_range_eq_some.mp scan
  obtain ⟨slot, slotBound, inSlot, slotBefore⟩ := findSome?_range_eq_some.mp inBus
  obtain ⟨func, funcBound, found, funcBefore⟩ := findSome?_range_eq_some.mp inSlot
  let p : PciPlace := ⟨bus, slot, func, busBound, slotBound, funcBound⟩
  have hit : p.Hit space type := by
    by_contra miss
    have nothing := candidate_of_miss member miss
    rw [found] at nothing
    cases nothing
  obtain ⟨e, same, describes⟩ := candidate_of_hit member hit
  obtain rfl := Option.some.inj (found.symm.trans same)
  refine ⟨p, hit, fun q before => ?_, describes⟩
  rw [← candidate_eq_none_iff member q]
  -- The loop that runs ahead of `p` at the first coordinate in which `q` is smaller saw nothing.
  rcases before with lower | ⟨sameBus, lower | ⟨sameSlot, lower⟩⟩
  · have slots := List.findSome?_eq_none_iff.mp (busBefore q.bus lower) q.slot (List.mem_range.mpr q.slotBound)
    exact List.findSome?_eq_none_iff.mp slots q.func (List.mem_range.mpr q.funcBound)
  · rw [sameBus]
    exact List.findSome?_eq_none_iff.mp (slotBefore q.slot lower) q.func (List.mem_range.mpr q.funcBound)
  · rw [sameBus, sameSlot]
    exact funcBefore q.func lower

end First

/-- For every configuration space and every device type: `findPciDevice` returns true if and only if some function
can be discovered and matches. Then `outDev` describes the first of these, with the address that `pci_read_bar64`
computes, and otherwise it is unchanged. -/
theorem find_pci_device_first (space : ConfigSpace) (type : DeviceType) (outDev : PciDevice) :
    ((findPciDevice space type outDev).1 = true ↔ ∃ p : PciPlace, p.Hit space type) ∧
      ((findPciDevice space type outDev).1 = true →
        ∃ p : PciPlace, p.Hit space type ∧ (∀ q : PciPlace, q.Before p → ¬q.Hit space type) ∧
          p.Describes space (findPciDevice space type outDev).2) ∧
      ((findPciDevice space type outDev).1 = false → (findPciDevice space type outDev).2 = outDev) := by
  obtain ⟨sig, member⟩ : ∃ sig, lookupTable.find? (fun item => item.type = type) = some sig := by
    cases type <;> exact ⟨_, rfl⟩
  rw [findPciDevice, member]
  simp only [scanSlot_eq]
  cases scan : (List.range 256).findSome? fun bus => (List.range 32).findSome? fun slot =>
      (List.range 8).findSome? (candidate space type sig bus slot) with
  | none =>
    have none := no_hit_of_scan member scan
    refine ⟨iff_of_false Bool.false_ne_true (not_exists.mpr none), fun found => ?_, fun _ => rfl⟩
    cases found
  | some d =>
    obtain ⟨p, hit, first, describes⟩ := first_hit_of_scan member scan
    refine ⟨iff_of_true rfl ⟨p, hit⟩, fun _ => ⟨p, hit, first, describes⟩, fun missed => ?_⟩
    cases missed

end RaryOS.Soundness
