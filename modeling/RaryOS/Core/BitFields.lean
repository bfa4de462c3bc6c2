import Mathlib.Data.Nat.Bitwise
import Mathlib.Tactic.Common

/-! # Fields of a packed word

A word is packed from fields with shifts and disjunctions. `bitField` reads a field back; it passes through
a disjunction, sees a value that was shifted to the same place, and nothing of a value that lies below or
above the field.
-/

namespace RaryOS.Core

/-- `width` bits of a word, from bit `low` on. -/
def bitField (n low width : ℕ) : ℕ := n / 2 ^ low % 2 ^ width

variable {a n low width shift size : ℕ}

theorem bitField_testBit (n low width i : ℕ) :
    (bitField n low width).testBit i = (decide (i < width) && n.testBit (i + low)) := by
  rw [bitField, Nat.testBit_mod_two_pow, Nat.testBit_div_two_pow]

theorem bitField_lt (n low width : ℕ) : bitField n low width < 2 ^ width := Nat.mod_lt _ (Nat.two_pow_pos width)

theorem bitField_or (a b low width : ℕ) :
    bitField (a ||| b) low width = bitField a low width ||| bitField b low width := by
  apply Nat.eq_of_testBit_eq
  intro i
  rw [Nat.testBit_or, bitField_testBit, bitField_testBit, bitField_testBit, Nat.testBit_or,
    Bool.and_or_distrib_left]

/-- A word that ends below the field. -/
theorem bitField_of_lt (short : n < 2 ^ low) : bitField n low width = 0 := by
  rw [bitField, Nat.div_eq_of_lt short, Nat.zero_mod]

/-- A word that is no longer than the field. -/
theorem bitField_zero_of_lt (short : n < 2 ^ width) : bitField n 0 width = n := by
  rw [bitField, Nat.pow_zero, Nat.div_one, Nat.mod_eq_of_lt short]

/-- A value that was shifted to the place of the field. -/
theorem bitField_shiftLeft_same (n low width : ℕ) : bitField (n <<< low) low width = n % 2 ^ width := by
  rw [bitField, Nat.shiftLeft_eq, Nat.mul_div_cancel _ (Nat.two_pow_pos low)]

/-- A value that was shifted above the field. -/
theorem bitField_shiftLeft_above (n : ℕ) (above : low + width ≤ shift) : bitField (n <<< shift) low width = 0 := by
  apply Nat.eq_of_testBit_eq
  intro i
  rw [bitField_testBit, Nat.testBit_shiftLeft, Nat.zero_testBit]
  by_cases inside : i < width
  · rw [decide_eq_false (show ¬shift ≤ i + low by omega), Bool.false_and, Bool.and_false]
  · rw [decide_eq_false inside, Bool.false_and]

/-- A value that was shifted and ends below the field. -/
theorem bitField_shiftLeft_below (short : n < 2 ^ size) (below : shift + size ≤ low) :
    bitField (n <<< shift) low width = 0 := by
  apply bitField_of_lt
  rw [Nat.shiftLeft_eq]
  calc
    n * 2 ^ shift < 2 ^ size * 2 ^ shift := (Nat.mul_lt_mul_right (Nat.two_pow_pos shift)).mpr short
    _ = 2 ^ (shift + size) := by rw [← Nat.pow_add, Nat.add_comm]
    _ ≤ 2 ^ low := Nat.pow_le_pow_right (by decide) below

/-- Cutting a word leaves the fields below the cut. -/
theorem bitField_mod (n : ℕ) (below : low + width ≤ size) :
    bitField (n % 2 ^ size) low width = bitField n low width := by
  apply Nat.eq_of_testBit_eq
  intro i
  rw [bitField_testBit, bitField_testBit, Nat.testBit_mod_two_pow]
  by_cases inside : i < width
  · rw [decide_eq_true (show i + low < size by omega), Bool.true_and]
  · rw [decide_eq_false inside, Bool.false_and, Bool.false_and]

/-- A disjunction with a value shifted above the other one is a sum. -/
theorem or_shiftLeft_of_lt (short : a < 2 ^ shift) (b : ℕ) : a ||| b <<< shift = a + 2 ^ shift * b := by
  rw [Nat.or_comm, Nat.shiftLeft_eq, Nat.mul_comm b, ← Nat.two_pow_add_eq_or_of_lt short, Nat.add_comm]

end RaryOS.Core
