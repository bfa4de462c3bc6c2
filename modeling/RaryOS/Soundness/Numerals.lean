import RaryOS.Proofs.Stdlib

/-! # The numbers that itoa writes

The two libraries differ in the case of the hexadecimal digits only. What they write is a numeral with a sign in
front of it, which reads back as the value: as a signed number in base 10, and as the bit pattern in base 16.
-/

namespace RaryOS.Soundness

open RaryOS.Core RaryOS.Model

/-- An upper case letter in lower case. -/
def toLower (c : BitVec 8) : BitVec 8 := if 0x41 ≤ c ∧ c ≤ 0x5A then c + 0x20 else c

def withoutSign (text : List (BitVec 8)) : List (BitVec 8) := if text.head? = some 0x2D then text.tail else text

/-- Read a number in base 10, with a sign or without. -/
def readSigned (text : List (BitVec 8)) : Option ℤ :=
  if text.head? = some 0x2D then (readNumeral digitValue 10 text.tail).map fun n : ℕ => -(n : ℤ)
  else (readNumeral digitValue 10 text).map fun n : ℕ => (n : ℤ)

/-- A text for a value that itoa may write in the base. -/
structure Spells (text : List (BitVec 8)) (value : BitVec 64) (base : BitVec 32) : Prop where
  nonzero : 0 ∉ text
  short : text.length ≤ 20
  digits : withoutSign text ≠ []
  leading : text = [0x30] ∨ (withoutSign text).head? ≠ some 0x30
  signed : base = 10 → readSigned text = some value.toInt
  unsigned : base = 16 → readNumeral digitValue 16 text = some value.toNat

section Texts

variable {digits : List (BitVec 8)} {b n : ℕ}

theorem read_numeral (good : Digits digits) (least : 1 < b) (most : b ≤ 16) (n : ℕ) :
    readNumeral digitValue b (numeral (digits.getD · 0) b n) = some n :=
  readNumeral_numeral least (fun d small => good.value d (by omega)) n

theorem digit_ne_zero (good : Digits digits) {d : ℕ} (positive : 0 < d) (small : d < 16) :
    digits.getD d 0 ≠ 0x30 := by
  intro zero
  have value := good.value d small
  rw [zero] at value
  exact positive.ne (Option.some.inj value)

/-- A numeral begins with a digit, and not with 0 unless it is that of 0. -/
theorem numeral_leading (good : Digits digits) (least : 1 < b) (most : b ≤ 16) (n : ℕ) :
    (numeral (digits.getD · 0) b n).head? ≠ some 0x2D ∧
      (n ≠ 0 → (numeral (digits.getD · 0) b n).head? ≠ some 0x30) := by
  rcases Nat.eq_zero_or_pos n with rfl | positive
  · refine ⟨?_, fun nonzero => absurd rfl nonzero⟩
    intro minus
    exact good.ne_minus (by decide) (Option.some.inj minus)
  · obtain ⟨d, rest, nonzero, small, text⟩ : ∃ d rest, 0 < d ∧ d < b ∧
        numeral (digits.getD · 0) b n = digits.getD d 0 :: rest := head_numeral least positive
    rw [text, List.head?_cons]
    refine ⟨fun minus => ?_, fun _ zero => ?_⟩
    · exact good.ne_minus (by omega) (Option.some.inj minus)
    · exact digit_ne_zero good nonzero (by omega) (Option.some.inj zero)

/-- The text of itoa spells its value. -/
theorem itoaText_spells (good : Digits digits) (value : BitVec 64) {base : BitVec 32} (ten : base = 10 ∨ base = 16) :
    Spells (itoaText digits value base) value base := by
  have clear := itoaText_nonzero good value ten
  have short : (itoaText digits value base).length ≤ 20 := length_itoaText value ten
  rcases Decidable.em (base = 10 ∧ value.toInt < 0) with negative | positive
  · obtain ⟨rfl, below⟩ := negative
    have text : itoaText digits value 10 = 0x2D :: numeral (digits.getD · 0) 10 value.toInt.natAbs :=
      if_pos ⟨rfl, below⟩
    have rest : withoutSign (0x2D :: numeral (digits.getD · 0) 10 value.toInt.natAbs) =
        numeral (digits.getD · 0) 10 value.toInt.natAbs := if_pos rfl
    rw [text] at clear short ⊢
    refine ⟨clear, short, ?_, Or.inr ?_, fun _ => ?_, fun never => ?_⟩
    · rw [rest]
      exact numeral_ne_nil _ _ _
    · rw [rest]
      exact (numeral_leading good (by decide) (by decide) _).2 (by omega)
    · rw [readSigned, if_pos List.head?_cons, List.tail_cons, read_numeral good (by decide) (by decide),
        Option.map_some]
      congr 1
      omega
    · cases never
  · have text : itoaText digits value base = numeral (digits.getD · 0) base.toNat value.toNat := if_neg positive
    have least : 1 < base.toNat := by rcases ten with rfl | rfl <;> decide
    have most : base.toNat ≤ 16 := by rcases ten with rfl | rfl <;> decide
    obtain ⟨plus, leading⟩ := numeral_leading good least most value.toNat
    have rest : withoutSign (numeral (digits.getD · 0) base.toNat value.toNat) =
        numeral (digits.getD · 0) base.toNat value.toNat := if_neg plus
    rw [text] at clear short ⊢
    refine ⟨clear, short, ?_, ?_, fun decimal => ?_, fun hex => ?_⟩
    · rw [rest]
      exact numeral_ne_nil _ _ _
    · rw [rest]
      rcases Nat.eq_zero_or_pos value.toNat with zero | nonzero
      · refine Or.inl ?_
        rw [zero, ← good.zero]
        rfl
      · exact Or.inr (leading nonzero.ne')
    · obtain rfl := decimal
      have whole : value.toInt = value.toNat := by
        have pattern := BitVec.toInt_eq_toNat_cond value
        have word := value.isLt
        have least : ¬value.toInt < 0 := fun below => positive ⟨rfl, below⟩
        split at pattern <;> omega
      rw [readSigned, if_neg plus, whole]
      change (readNumeral digitValue 10 (numeral _ 10 _)).map _ = _
      rw [read_numeral good (by decide) (by decide), Option.map_some]
    · obtain rfl := hex
      exact read_numeral good (by decide) (by decide) _

/-- Upper case and lower case digits. -/
theorem itoaText_toLower (value : BitVec 64) {base : BitVec 32} (ten : base = 10 ∨ base = 16) :
    (itoaText Lib.digits value base).map toLower = (itoaText UserLibc.digits value base).map toLower := by
  have same : ∀ b n : ℕ, 1 < b → b ≤ 16 →
      (numeral (Lib.digits.getD · 0) b n).map toLower = (numeral (UserLibc.digits.getD · 0) b n).map toLower := by
    intro b n least most
    have letters : ∀ d < 16, toLower (Lib.digits.getD d 0) = toLower (UserLibc.digits.getD d 0) := by decide
    rw [map_numeral, map_numeral]
    apply numeral_congr least
    intro d small
    exact letters d (by omega)
  rw [itoaText, itoaText]
  split
  · rw [List.map_cons, List.map_cons, same 10 _ (by decide) (by decide)]
  · rcases ten with rfl | rfl
    · exact same 10 _ (by decide) (by decide)
    · exact same 16 _ (by decide) (by decide)

end Texts

/-- For every value and base 10 or 16, each itoa comes to an end, writes at most the first 21 bytes of its buffer,
and leaves there a text with its terminator. The two texts are the same up to case, and each spells the value. -/
theorem itoa_spells (value : BitVec 64) {base : BitVec 32} (ten : base = 10 ∨ base = 16) (m m' : Memory)
    {buffer : ℕ} (given : buffer ≠ 0) (buffer' : ℕ) {fuel : ℕ} (enough : 21 ≤ fuel) :
    ∃ text text' : List (BitVec 8),
      ((Lib.itoa value buffer base fuel).Ensures m (Span buffer 21) (Span buffer 21)
        fun _ after => after.Holds buffer (text ++ [0])) ∧
      ((UserLibc.itoa value buffer' base fuel).Ensures m' (Span buffer' 21) (Span buffer' 21)
        fun _ after => after.Holds buffer' (text' ++ [0])) ∧
      text.map toLower = text'.map toLower ∧ Spells text value base ∧ Spells text' value base := by
  refine ⟨itoaText Lib.digits value base, itoaText UserLibc.digits value base, ?_, ?_, ?_, ?_, ?_⟩
  · exact lib_itoa_ensures value ten given enough
  · exact userLibc_itoa_ensures value ten enough
  · exact itoaText_toLower value ten
  · exact itoaText_spells lib_digits value ten
  · exact itoaText_spells userLibc_digits value ten

theorem itoa_spells_sample : ∃ text text' : List (BitVec 8),
    ((Lib.itoa 0x8000000000000000 0x100 10 21).Ensures (fun _ => 0) (Span 0x100 21) (Span 0x100 21)
      fun _ after => after.Holds 0x100 (text ++ [0])) ∧
    ((UserLibc.itoa 0x8000000000000000 0x200 10 21).Ensures (fun _ => 0) (Span 0x200 21) (Span 0x200 21)
      fun _ after => after.Holds 0x200 (text' ++ [0])) ∧
    text.map toLower = text'.map toLower ∧ Spells text 0x8000000000000000 10 ∧ Spells text' 0x8000000000000000 10 :=
  itoa_spells 0x8000000000000000 (Or.inl rfl) _ _ (by decide) _ (by decide)

end RaryOS.Soundness
