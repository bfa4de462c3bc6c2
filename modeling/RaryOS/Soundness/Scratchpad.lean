import RaryOS.Core.BitFields
import RaryOS.Model.XhciCaps

/-! # The scratchpad buffers

HCSPARAMS2 has the number of scratchpad buffers in two fields of five bits, the high one in bits 25 to 21 and
the low one in bits 31 to 27. `parse_caps` takes the low part from bits 7 to 0 instead, where other parameters
are, and `setup_dcbaap` installs 32 buffers at most. The controller is started in any case.
-/

namespace RaryOS.Soundness

open RaryOS.Core RaryOS.Model

/-- Max Scratchpad Buffers. -/
def maxScratchpadBufs (cap2 : BitVec 32) : ℕ := 32 * bitField cap2.toNat 21 5 + bitField cap2.toNat 27 5

/-- The scratchpad array has exactly `n` buffers: distinct pages of the driver, all zeroed. The device context
array points to it exactly when there are any. -/
structure ScratchpadInstalled (l : XhciLayout) (n : ℕ) (a : XhciArrays) : Prop where
  pages : ∀ i < n, i < maxScratchpad ∧ ∃ page < maxScratchpad,
    a.scratchpadArray i = l.page page ∧ ∀ k < 4096, a.scratchpadData page k = 0
  distinct : ∀ i < n, ∀ j < n, a.scratchpadArray i = a.scratchpadArray j → i = j
  others : ∀ i < maxScratchpad, n ≤ i → a.scratchpadArray i = 0
  pointer : a.dcbaap 0 = l.scratchpadArray ↔ n ≠ 0

/-- The driver sets the Run bit. -/
def Started (caps : XhciCaps) (writes : List (ℕ × ℕ)) : Prop := (caps.op, xhciUsbcmdRs) ∈ writes

/-- After `run` has come past `start`: the buffers that the controller asks for are installed, or it was not
started. -/
def ScratchpadServed (l : XhciLayout) (regs : ℕ → BitVec 32) (mmioBase : ℕ) : Prop :=
  ∃ caps a writes, runStart l regs mmioBase {} = (caps, a, writes) ∧
    (ScratchpadInstalled l (maxScratchpadBufs (regs 0x08)) a ∨ ¬Started caps writes)

/-! ## What is installed -/

section Installed

variable (l : XhciLayout) {n : ℕ}

/-- The arrays after `sp` iterations. -/
structure InstalledPages (sp : ℕ) (a : XhciArrays) : Prop where
  page : ∀ i < sp, a.scratchpadArray i = l.page i ∧ a.scratchpadData i = fun _ => 0
  blank : ∀ i, sp ≤ i → a.scratchpadArray i = 0
  pointer : a.dcbaap 0 = 0

/-- One iteration installs one page. -/
theorem InstalledPages.succ {sp : ℕ} {a : XhciArrays} (pages : InstalledPages l sp a) :
    InstalledPages l (sp + 1) (a.installPage l sp) where
  page i inside := by
    rcases Nat.lt_succ_iff_lt_or_eq.mp inside with earlier | rfl
    · simp only [XhciArrays.installPage, Function.update_of_ne (Nat.ne_of_lt earlier)]
      exact pages.page i earlier
    · simp only [XhciArrays.installPage, Function.update_self, and_self]
  blank i outside := by
    simp only [XhciArrays.installPage, Function.update_of_ne (show i ≠ sp by omega)]
    exact pages.blank i (by omega)
  pointer := pages.pointer

theorem installedPages_foldl (sp : ℕ) :
    InstalledPages l sp ((List.range sp).foldl (XhciArrays.installPage l) { dcbaap := fun _ => 0 }) := by
  induction sp with
  | zero => exact ⟨fun i inside => absurd inside (Nat.not_lt_zero i), fun _ _ => rfl, rfl⟩
  | succ sp ih =>
    rw [List.range_succ, List.foldl_append]
    exact ih.succ

/-- `setup_dcbaap` installs the number it is given, and 32 at most. -/
theorem setupDcbaap_installed (numScratchpad : ℕ) :
    ScratchpadInstalled l (min maxScratchpad numScratchpad) (XhciArrays.setupDcbaap l numScratchpad {}) := by
  have clamp : (if maxScratchpad < numScratchpad then maxScratchpad else numScratchpad) =
      min maxScratchpad numScratchpad := by
    rw [Nat.min_def]
    split_ifs <;> omega
  have installed := installedPages_foldl l (min maxScratchpad numScratchpad)
  simp only [XhciArrays.setupDcbaap, clamp]
  have array := l.array_pos
  by_cases any : 0 < min maxScratchpad numScratchpad
  · rw [if_pos any]
    refine ⟨fun i inside => ?_, fun i inside j other same => ?_, fun i _ outside => installed.blank i outside, ?_⟩
    · obtain ⟨page, zeroed⟩ := installed.page i inside
      exact ⟨by omega, i, by omega, page, fun k _ => congrFun zeroed k⟩
    · have same := ((installed.page i inside).1.symm.trans same).trans (installed.page j other).1
      simp only [XhciLayout.page] at same
      omega
    · simp only [Function.update_self, true_iff]
      omega
  · rw [if_neg any, show min maxScratchpad numScratchpad = 0 by omega]
    refine ⟨fun i inside => absurd inside (Nat.not_lt_zero i), fun i inside => absurd inside (Nat.not_lt_zero i),
      fun _ _ _ => rfl, ?_⟩
    simp only [ne_eq, not_true_eq_false, iff_false]
    omega

/-- No other number of buffers is installed then. -/
theorem ScratchpadInstalled.unique {a : XhciArrays} {n' : ℕ} (left : ScratchpadInstalled l n a)
    (right : ScratchpadInstalled l n' a) : n ≤ n' := by
  by_contra more
  obtain ⟨inside, page, _, here, _⟩ := left.pages n' (by omega)
  have blank := right.others n' inside le_rfl
  have data := l.data_pos
  simp only [here, XhciLayout.page] at blank
  omega

end Installed

/-! ## The number -/

section Number

variable (cap2 : BitVec 32)

theorem numScratchpadOf_eq : numScratchpadOf cap2 = bitField cap2.toNat 21 5 <<< 5 ||| bitField cap2.toNat 0 8 := by
  rw [numScratchpadOf, Nat.shiftRight_eq_div_pow, show 0x1F = 2 ^ 5 - 1 from rfl, show 0xFF = 2 ^ 8 - 1 from rfl,
    Nat.and_two_pow_sub_one_eq_mod, Nat.and_two_pow_sub_one_eq_mod, bitField, bitField, Nat.pow_zero, Nat.div_one]

/-- With the high part zero the low byte of the register is the number. -/
theorem numScratchpadOf_of_low (low : bitField cap2.toNat 21 5 = 0) :
    numScratchpadOf cap2 = bitField cap2.toNat 0 8 := by
  rw [numScratchpadOf_eq, low, Nat.zero_shiftLeft, Nat.zero_or]

/-- Otherwise it is at least 32. -/
theorem le_numScratchpadOf (high : bitField cap2.toNat 21 5 ≠ 0) : maxScratchpad ≤ numScratchpadOf cap2 := by
  rw [numScratchpadOf_eq]
  calc
    maxScratchpad ≤ bitField cap2.toNat 21 5 <<< 5 := by
      rw [Nat.shiftLeft_eq, maxScratchpad]
      omega
    _ ≤ _ := Nat.left_le_or

/-- The clamped number is the one of the register in two cases only. -/
theorem min_numScratchpadOf_iff : min maxScratchpad (numScratchpadOf cap2) = maxScratchpadBufs cap2 ↔
    (bitField cap2.toNat 21 5 = 1 ∧ bitField cap2.toNat 27 5 = 0) ∨
      (bitField cap2.toNat 21 5 = 0 ∧ bitField cap2.toNat 0 8 = bitField cap2.toNat 27 5) := by
  have small := bitField_lt cap2.toNat 27 5
  rw [maxScratchpadBufs]
  by_cases low : bitField cap2.toNat 21 5 = 0
  · rw [numScratchpadOf_of_low cap2 low, maxScratchpad]
    omega
  · have clamped := le_numScratchpadOf cap2 low
    rw [Nat.min_eq_left clamped, maxScratchpad]
    omega

end Number

/-- `run` starts the controller whatever the register says. -/
theorem runStart_started (l : XhciLayout) (regs : ℕ → BitVec 32) (mmioBase : ℕ) (a : XhciArrays) :
    Started (runStart l regs mmioBase a).1 (runStart l regs mmioBase a).2.2 :=
  List.mem_append_right _ (List.mem_singleton_self _)

/-- For every value of HCSPARAMS2: the buffers that the controller asks for are installed exactly when it asks
for 32 with the high field alone, or for fewer with the same number in the low byte. -/
theorem scratchpad_served_iff (l : XhciLayout) (regs : ℕ → BitVec 32) (mmioBase : ℕ) :
    ScratchpadServed l regs mmioBase ↔
      (bitField (regs 0x08).toNat 21 5 = 1 ∧ bitField (regs 0x08).toNat 27 5 = 0) ∨
        (bitField (regs 0x08).toNat 21 5 = 0 ∧
          bitField (regs 0x08).toNat 0 8 = bitField (regs 0x08).toNat 27 5) := by
  have installed := setupDcbaap_installed l (numScratchpadOf (regs 0x08))
  rw [← min_numScratchpadOf_iff]
  constructor
  · rintro ⟨caps, a, writes, run, served⟩
    cases run
    rcases served with wanted | stopped
    · exact Nat.le_antisymm (installed.unique l wanted) (wanted.unique l installed)
    · exact absurd (runStart_started l regs mmioBase {}) stopped
  · intro same
    rw [same] at installed
    exact ⟨_, _, _, rfl, Or.inl installed⟩

/-- A layout. -/
def sampleLayout : XhciLayout := ⟨0x210000, 0x210800, 0x211000, 0x231000, 0x232000, 0x233000, by decide, by decide⟩

/-- HCSPARAMS2 of a controller that asks for 1 buffer, with zeros in the other fields: no buffer is installed, and
the device context array points to none. -/
theorem scratchpad_unserved :
    maxScratchpadBufs 0x08000000 = 1 ∧ ¬ScratchpadServed sampleLayout (fun _ => 0x08000000) 0xFEBF0000 := by
  refine ⟨by decide, ?_⟩
  rintro ⟨caps, a, writes, run, served⟩
  cases run
  rcases served with wanted | stopped
  · exact absurd (wanted.pointer.mpr (by decide)) (by decide)
  · exact stopped (runStart_started _ _ _ {})

end RaryOS.Soundness
