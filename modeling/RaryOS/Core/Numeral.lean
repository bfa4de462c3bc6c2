import Mathlib.Algebra.Group.Nat.Defs
import Mathlib.Data.Nat.Digits.Lemmas

/-! # Numerals

A number is written with its digits in a base, the highest first, and 0 as one digit. The symbols of the digits
are a parameter. A numeral reads back as its number, has no leading zero, and is as long as the number needs. The
numerals of the standard library are these with their own symbols.
-/

namespace RaryOS.Core

variable {α β : Type*} {b n : ℕ}

/-- The digits, the highest first. -/
def numeral (digit : ℕ → α) (b n : ℕ) : List α :=
  if n = 0 then [digit 0] else ((Nat.digits b n).map digit).reverse

/-- A number with one more digit; `none` if the symbol is no digit in the base. -/
def appendDigit (value : α → Option ℕ) (b : ℕ) (n : Option ℕ) (c : α) : Option ℕ :=
  match n, value c with
  | some n, some d => if d < b then some (n * b + d) else none
  | _, _ => none

/-- The value of a string of digits in the base. -/
def readNumeral (value : α → Option ℕ) (b : ℕ) (text : List α) : Option ℕ :=
  text.foldl (appendDigit value b) (some 0)

theorem appendDigit_of_lt {value : α → Option ℕ} {c : α} {d : ℕ} (digit : value c = some d) (small : d < b) :
    appendDigit value b (some n) c = some (n * b + d) := by
  unfold appendDigit
  rw [digit]
  exact if_pos small

section Numeral

variable {digit : ℕ → α}

theorem numeral_of_ne_zero (nonzero : n ≠ 0) : numeral digit b n = ((Nat.digits b n).map digit).reverse :=
  if_neg nonzero

theorem numeral_ne_nil (digit : ℕ → α) (b n : ℕ) : numeral digit b n ≠ [] := by
  rw [numeral]
  split
  · exact List.cons_ne_nil _ _
  · next nonzero =>
    rw [ne_eq, List.reverse_eq_nil_iff, List.map_eq_nil_iff]
    exact Nat.digits_ne_nil_iff_ne_zero.mpr nonzero

/-- The last digit is the remainder. -/
theorem numeral_eq_if (base : 1 < b) :
    numeral digit b n = if n < b then [digit n] else numeral digit b (n / b) ++ [digit (n % b)] := by
  rcases Nat.eq_zero_or_pos n with rfl | positive
  · rw [if_pos (by omega)]
    rfl
  · rw [numeral_of_ne_zero (by omega), Nat.digits_def' base positive, List.map_cons, List.reverse_cons]
    split
    · next small =>
      rw [Nat.div_eq_of_lt small, Nat.mod_eq_of_lt small, Nat.digits_zero, List.map_nil, List.reverse_nil,
        List.nil_append]
    · next large =>
      have quotient : n / b ≠ 0 := (Nat.div_pos (by omega) (by omega)).ne'
      rw [numeral_of_ne_zero quotient]

/-- Induction along the digits. -/
theorem numeral_induction (base : 1 < b) (Good : ℕ → List α → Prop) (single : ∀ n, n < b → Good n [digit n])
    (more : ∀ n, b ≤ n → Good (n / b) (numeral digit b (n / b)) →
      Good n (numeral digit b (n / b) ++ [digit (n % b)])) (n : ℕ) : Good n (numeral digit b n) := by
  induction n using Nat.strong_induction_on with
  | _ n ih =>
    rw [numeral_eq_if base]
    split
    · next small => exact single n small
    · next large => exact more n (by omega) (ih (n / b) (Nat.div_lt_self (by omega) base))

theorem length_numeral_le (base : 1 < b) {k : ℕ} (positive : 0 < k) (small : n < b ^ k) :
    (numeral digit b n).length ≤ k := by
  rw [numeral]
  split
  · exact positive
  · rw [List.length_reverse, List.length_map]
    exact (Nat.digits_length_le_iff base n).mpr small

/-- The first digit of a positive number is not zero. -/
theorem head_numeral (base : 1 < b) (positive : 0 < n) :
    ∃ d rest, 0 < d ∧ d < b ∧ numeral digit b n = digit d :: rest := by
  revert positive
  apply numeral_induction base (fun n text => 0 < n → ∃ d rest, 0 < d ∧ d < b ∧ text = digit d :: rest)
  · intro n small positive
    exact ⟨n, [], positive, small, rfl⟩
  · intro n large ih _
    obtain ⟨d, rest, positive, small, text⟩ := ih (Nat.div_pos large (by omega))
    exact ⟨d, rest ++ [digit (n % b)], positive, small, by rw [text, List.cons_append]⟩

/-- Every symbol is that of a digit. -/
theorem mem_numeral (base : 1 < b) {c : α} (member : c ∈ numeral digit b n) : ∃ d < b, c = digit d := by
  revert member
  apply numeral_induction base (fun _ text => c ∈ text → ∃ d < b, c = digit d)
  · intro n small member
    exact ⟨n, small, List.mem_singleton.mp member⟩
  · intro n _ ih member
    rcases List.mem_append.mp member with earlier | last
    · exact ih earlier
    · exact ⟨n % b, Nat.mod_lt _ (by omega), List.mem_singleton.mp last⟩

theorem map_numeral (f : α → β) (digit : ℕ → α) (b n : ℕ) :
    (numeral digit b n).map f = numeral (fun d => f (digit d)) b n := by
  rw [numeral, numeral]
  split
  · rfl
  · rw [List.map_reverse, List.map_map]
    rfl

/-- Alphabets that agree on the digits give the same numerals. -/
theorem numeral_congr (base : 1 < b) {digit' : ℕ → α} (same : ∀ d < b, digit d = digit' d) (n : ℕ) :
    numeral digit b n = numeral digit' b n := by
  apply numeral_induction base (fun n text => text = numeral digit' b n)
  · intro n small
    rw [numeral_eq_if base, if_pos small, same n small]
  · intro n large ih
    have last : numeral digit' b n = numeral digit' b (n / b) ++ [digit' (n % b)] := by
      rw [numeral_eq_if base, if_neg (by omega)]
    rw [last, ih, same _ (Nat.mod_lt _ (by omega))]

/-- A numeral reads back as its number. -/
theorem readNumeral_numeral {value : α → Option ℕ} (base : 1 < b) (inverse : ∀ d < b, value (digit d) = some d)
    (n : ℕ) : readNumeral value b (numeral digit b n) = some n := by
  apply numeral_induction base (fun n text => readNumeral value b text = some n)
  · intro n small
    rw [readNumeral, List.foldl_cons, List.foldl_nil, appendDigit_of_lt (inverse n small) small, Nat.zero_mul,
      Nat.zero_add]
  · intro n _ ih
    have small : n % b < b := Nat.mod_lt _ (by omega)
    rw [readNumeral] at ih ⊢
    rw [List.foldl_append, ih, List.foldl_cons, List.foldl_nil, appendDigit_of_lt (inverse _ small) small,
      Nat.div_add_mod']

/-- The numerals of the standard library. -/
theorem toDigits_eq_numeral (base : 1 < b) (n : ℕ) : Nat.toDigits b n = numeral Nat.digitChar b n := by
  symm
  apply numeral_induction base (fun n text => text = Nat.toDigits b n)
  · intro n small
    rw [Nat.toDigits_eq_if base, if_pos small]
  · intro n large ih
    rw [Nat.toDigits_eq_if base, if_neg (by omega), ih]

end Numeral

end RaryOS.Core
