import Mathlib.Data.BitVec

/-! # Fields of a register

A register is a bit vector whose fields are packed with shifts and disjunctions and read back by
`BitVec.extractLsb'`. A field sees a value that was shifted to the same place, nothing of a value below or above it,
and nothing of a change of the other bits.
-/

namespace RaryOS.Core

variable {w width low len shift : ℕ}

/-- A value that was shifted to the place of the field. -/
theorem extract_shiftLeft_same (x : BitVec w) (fits : low + len ≤ w) :
    (x <<< low).extractLsb' low len = x.setWidth len := by
  ext i inside
  rw [BitVec.getElem_extractLsb', BitVec.getLsbD_shiftLeft, BitVec.getElem_setWidth, Nat.add_sub_cancel_left,
    decide_eq_true (show low + i < w by omega), decide_eq_false (show ¬low + i < low by omega), Bool.not_false,
    Bool.true_and, Bool.true_and]

/-- A value that was shifted above the field. -/
theorem extract_shiftLeft_below (x : BitVec w) (below : low + len ≤ shift) : (x <<< shift).extractLsb' low len = 0 := by
  ext i inside
  rw [BitVec.getElem_extractLsb', BitVec.getLsbD_shiftLeft, decide_eq_true (show low + i < shift by omega),
    Bool.not_true, Bool.and_false, Bool.false_and]
  exact (BitVec.getElem_zero inside).symm

/-- A short value that ends below the field. -/
theorem extract_shiftLeft_above (v : BitVec width) (above : shift + width ≤ low) :
    (v.setWidth w <<< shift).extractLsb' low len = 0 := by
  ext i inside
  rw [BitVec.getElem_extractLsb', BitVec.getLsbD_shiftLeft, BitVec.getLsbD_setWidth,
    BitVec.getLsbD_of_ge v _ (by omega), Bool.and_false, Bool.and_false]
  exact (BitVec.getElem_zero inside).symm

/-- Only the bits above matter for a field. -/
theorem extract_of_ushiftRight {x y : BitVec w} (same : x >>> shift = y >>> shift) (above : shift ≤ low) :
    x.extractLsb' low len = y.extractLsb' low len := by
  ext i inside
  have bit := congrArg (fun z => z.getLsbD (low - shift + i)) same
  simp only [BitVec.getLsbD_ushiftRight, show shift + (low - shift + i) = low + i by omega] at bit
  rw [BitVec.getElem_extractLsb', BitVec.getElem_extractLsb', bit]

/-- Only the bits below matter for a field. -/
theorem extract_of_setWidth {x y : BitVec w} (same : x.setWidth width = y.setWidth width) (below : low + len ≤ width) :
    x.extractLsb' low len = y.extractLsb' low len := by
  ext i inside
  have bit := congrArg (fun z => z.getLsbD (low + i)) same
  simp only [BitVec.getLsbD_setWidth, decide_eq_true (show low + i < width by omega), Bool.true_and] at bit
  rw [BitVec.getElem_extractLsb', BitVec.getElem_extractLsb', bit]

end RaryOS.Core
