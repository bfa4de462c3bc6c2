import RaryOS.Proofs.Stdio

/-! # The unsigned directives of printf

An unsigned argument is passed to itoa as a `long`, and in base 10 itoa takes it as signed. So an argument of 32
bits is written as it is, and one of 64 bits only if its top bit is clear.
-/

namespace RaryOS.Soundness

open RaryOS.Core RaryOS.Model

/-- The decimal representation of the standard library. -/
def decimal (n : ℕ) : List (BitVec 8) := (Nat.toDigits 10 n).map ch

/-- With enough fuel `printf` writes this. -/
def Prints (lib : PrintfLibrary) (m : Memory) (buffer : ℕ) (args : ℕ → BitVec 64) (format : ℕ)
    (out : List (BitVec 8)) : Prop :=
  ∃ enough, ∀ fuel, enough ≤ fuel → (printf lib m buffer args format fuel).value = some out

/-- `%lu` or `%u`. -/
def unsignedPiece : Bool → Piece
  | true => .long (ch 'u')
  | false => .directive (ch 'u') (by decide)

/-- The argument of `%lu` or of `%u`. -/
def unsignedArgument : Bool → BitVec 64 → ℕ
  | true, slot => slot.toNat
  | false, slot => (slot.setWidth 32).toNat

section Unsigned

variable {lib : PrintfLibrary} {digits : List (BitVec 8)} {m : Memory} {buffer : ℕ} {args : ℕ → BitVec 64}
  {format fuel : ℕ} {out : List (BitVec 8)}

theorem Prints.unique {out' : List (BitVec 8)} (first : Prints lib m buffer args format out)
    (second : Prints lib m buffer args format out') : out = out' := by
  obtain ⟨n, first⟩ := first
  obtain ⟨k, second⟩ := second
  exact Option.some.inj ((first (max n k) (Nat.le_max_left ..)).symm.trans (second (max n k) (Nat.le_max_right ..)))

/-- What a format of whole pieces prints is what the pieces write. -/
theorem prints_iff {pieces : List Piece} (holds : m.Holds format (spell pieces ++ [0])) (nonzero : 0 ∉ spell pieces)
    (small : (spell pieces).length < 2 ^ 31) :
    Prints lib m buffer args format out ↔
      ∃ enough, ∀ fuel, enough ≤ fuel → piecesText lib m buffer args fuel 0 pieces = some out := by
  have fits : 0 + (spell pieces).length < 2 ^ 31 := by rwa [Nat.zero_add]
  have value : ∀ fuel, pieces.length < fuel →
      (printf lib m buffer args format fuel).value = piecesText lib m buffer args fuel 0 pieces := by
    intro fuel enough
    rw [printf, printfFrom_pieces_value (s := ⟨0, 0, []⟩) holds nonzero fits enough]
    exact Option.map_id'
  constructor
  · rintro ⟨enough, prints⟩
    refine ⟨max enough (pieces.length + 1), fun fuel more => ?_⟩
    rw [← value fuel (by omega)]
    exact prints fuel (by omega)
  · rintro ⟨enough, text⟩
    refine ⟨max enough (pieces.length + 1), fun fuel more => ?_⟩
    rw [value fuel (by omega)]
    exact text fuel (by omega)

theorem unsigned_conversion (library : lib = Lib.printfLibrary ∨ lib = UserLibc.printfLibrary) (long : Bool) :
    (unsignedPiece long).conversion lib = .number (if long then .long else .unsignedInt) 10 [] := by
  rcases library with rfl | rfl <;> cases long <;> rfl

/-- A number that is not negative as a `long` is written in decimal. -/
theorem itoaText_eq_decimal (good : Digits digits) {value : BitVec 64} (nonnegative : 0 ≤ value.toInt) :
    itoaText digits value 10 = decimal value.toNat := by
  have symbols : ∀ d < 10, digits.getD d 0 = ch (Nat.digitChar d) := by
    have standard : ∀ d < 10, BitVec.ofNat 8 (0x30 + d) = ch (Nat.digitChar d) := by decide
    intro d small
    rw [good.decimal d small, standard d small]
  rw [itoaText, if_neg fun negative => Int.not_le.mpr negative.2 nonnegative, decimal,
    toDigits_eq_numeral (by decide), map_numeral]
  exact numeral_congr (by decide) symbols _

/-- A negative number has a sign. -/
theorem itoaText_ne_decimal {value : BitVec 64} (negative : value.toInt < 0) (n : ℕ) :
    itoaText digits value 10 ≠ decimal n := by
  intro same
  rw [itoaText, if_pos ⟨rfl, negative⟩] at same
  have member : (0x2D : BitVec 8) ∈ decimal n := same ▸ List.mem_cons_self ..
  rw [decimal, toDigits_eq_numeral (by decide), map_numeral] at member
  obtain ⟨d, small, minus⟩ := mem_numeral (by decide) member
  have plain : ∀ d < 10, (0x2D : BitVec 8) ≠ ch (Nat.digitChar d) := by decide
  exact plain d small minus

/-- The unsigned argument as a `long` in base 10. -/
theorem itoaText_unsigned_iff (good : Digits digits) (long : Bool) (slot : BitVec 64) :
    itoaText digits ((if long then ArgType.long else ArgType.unsignedInt).toLong slot) 10 =
        decimal (unsignedArgument long slot) ↔ (long = true → slot.toNat < 2 ^ 63) := by
  have pattern := BitVec.toInt_eq_toNat_cond slot
  cases long with
  | false =>
    apply iff_of_true
    · have narrow := (slot.setWidth 32).isLt
      have value : ((slot.setWidth 32).setWidth 64).toNat = (slot.setWidth 32).toNat := by
        rw [BitVec.toNat_setWidth, Nat.mod_eq_of_lt (by omega)]
      have nonnegative : 0 ≤ ((slot.setWidth 32).setWidth 64).toInt := by
        rw [BitVec.toInt_eq_toNat_of_lt (by omega)]
        exact Int.natCast_nonneg _
      exact (itoaText_eq_decimal good nonnegative).trans (congrArg decimal value)
    · intro never
      cases never
  | true =>
    have whole := slot.isLt
    constructor
    · intro same _
      apply Nat.lt_of_not_le
      intro large
      exact itoaText_ne_decimal (show slot.toInt < 0 by split at pattern <;> omega) _ same
    · intro small
      have half := small rfl
      exact itoaText_eq_decimal good (show 0 ≤ slot.toInt by split at pattern <;> omega)

/-- The directive between any other pieces writes its argument as a `long`. -/
theorem unsigned_prints (library : lib = Lib.printfLibrary ∨ lib = UserLibc.printfLibrary)
    (works : LibraryOf lib digits) (given : buffer ≠ 0) (long : Bool) {before after : List Piece}
    {formatBefore formatAfter : ℕ} {first last : List (BitVec 8)}
    (holds : m.Holds format (spell (before ++ unsignedPiece long :: after) ++ [0]))
    (nonzero : 0 ∉ spell (before ++ unsignedPiece long :: after))
    (small : (spell (before ++ unsignedPiece long :: after)).length < 2 ^ 31)
    (holdsBefore : m.Holds formatBefore (spell before ++ [0])) (holdsAfter : m.Holds formatAfter (spell after ++ [0]))
    (printsBefore : Prints lib m buffer args formatBefore first)
    (printsAfter : Prints lib m buffer (fun k => args (argCount lib before + 1 + k)) formatAfter last) :
    Prints lib m buffer args format (first ++ (itoaText digits
      ((if long then ArgType.long else ArgType.unsignedInt).toLong (args (argCount lib before))) 10 ++ last)) := by
  have conversion := unsigned_conversion library long
  have parts := nonzero
  have lengths := small
  rw [spell_append, spell_cons, List.mem_append, List.mem_append, not_or, not_or] at parts
  rw [spell_append, spell_cons, List.length_append, List.length_append] at lengths
  obtain ⟨n, beforeText⟩ := (prints_iff holdsBefore parts.1 (by omega)).mp printsBefore
  obtain ⟨k, afterText⟩ := (prints_iff holdsAfter parts.2.2 (by omega)).mp printsAfter
  rw [prints_iff holds nonzero small]
  refine ⟨max 21 (max n k), fun fuel enough => ?_⟩
  have number : (((Directive.number (if long then .long else .unsignedInt) 10 []).write lib buffer
      (args (argCount lib before)) fuel).run m).value = _ :=
    number_value works given (Or.inl rfl) _ (show 21 ≤ fuel by omega)
  rw [piecesText_append, beforeText fuel (by omega), Option.bind_some, Nat.zero_add, piecesText, conversion, number,
    Option.bind_some, show Directive.arity (.number _ 10 []) = 1 from rfl, ← Nat.add_zero (_ + 1), piecesText_shift,
    afterText fuel (by omega)]
  rfl

/-- In both libraries, for `%u` and for `%lu` between any other pieces and for any argument: the directive writes the
decimal representation of its argument, if and only if this is not a 64-bit one with its top bit set. -/
theorem printf_unsigned_iff (library : lib = Lib.printfLibrary ∨ lib = UserLibc.printfLibrary) (given : buffer ≠ 0)
    (long : Bool) {before after : List Piece} {formatBefore formatAfter : ℕ} {first last : List (BitVec 8)}
    (holds : m.Holds format (spell (before ++ unsignedPiece long :: after) ++ [0]))
    (nonzero : 0 ∉ spell (before ++ unsignedPiece long :: after))
    (small : (spell (before ++ unsignedPiece long :: after)).length < 2 ^ 31)
    (holdsBefore : m.Holds formatBefore (spell before ++ [0])) (holdsAfter : m.Holds formatAfter (spell after ++ [0]))
    (printsBefore : Prints lib m buffer args formatBefore first)
    (printsAfter : Prints lib m buffer (fun k => args (argCount lib before + 1 + k)) formatAfter last) :
    Prints lib m buffer args format
        (first ++ (decimal (unsignedArgument long (args (argCount lib before))) ++ last)) ↔
      (long = true → (args (argCount lib before)).toNat < 2 ^ 63) := by
  obtain ⟨digits, works⟩ := exists_libraryOf library
  have printed := unsigned_prints library works given long holds nonzero small holdsBefore holdsAfter printsBefore
    printsAfter
  rw [← itoaText_unsigned_iff works.alphabet long]
  constructor
  · intro prints
    have same := List.append_cancel_left (printed.unique prints)
    exact List.append_cancel_right same
  · intro same
    rw [← same]
    exact printed

end Unsigned

/-- The formats `a%lu`, `a` and the empty one. -/
def unsignedFormats : Memory := fun address =>
  if address = 0x2000 then ch 'a' else [ch 'a', ch '%', ch 'l', ch 'u'].getD (address - 0x1000) 0

theorem printf_unsigned_iff_sample :
    Prints UserLibc.printfLibrary unsignedFormats 0x4000 (fun _ => 5) 0x1000 ([ch 'a'] ++ (decimal 5 ++ [])) := by
  have holds : unsignedFormats.Holds 0x2000 (spell [.plain (ch 'a') (by decide)] ++ [0]) := by decide
  have before : Prints UserLibc.printfLibrary unsignedFormats 0x4000 (fun _ => 5) 0x2000 [ch 'a'] :=
    (prints_iff holds (by decide) (by decide)).mpr ⟨0, fun _ _ => rfl⟩
  have empty : unsignedFormats.Holds 0x3000 (spell [] ++ [0]) := by decide
  have after : Prints UserLibc.printfLibrary unsignedFormats 0x4000 (fun _ => 5) 0x3000 [] :=
    (prints_iff empty (by decide) (by decide)).mpr ⟨0, fun _ _ => rfl⟩
  exact (printf_unsigned_iff (Or.inr rfl) (by decide) true (by decide) (by decide) (by decide) holds empty before
    after).mpr fun _ => by decide

/-- The format `%lu` at 0x1000 in an otherwise empty memory. -/
def unsignedFormat : Memory := fun address => [ch '%', ch 'l', ch 'u'].getD (address - 0x1000) 0

/-- An argument with its top bit set. -/
theorem not_prints_decimal {lib : PrintfLibrary} (library : lib = Lib.printfLibrary ∨ lib = UserLibc.printfLibrary) :
    ¬Prints lib unsignedFormat 0x4000 (fun _ => 0x8000000000000000) 0x1000 (decimal (2 ^ 63)) := by
  obtain ⟨digits, works⟩ := exists_libraryOf library
  have empty : unsignedFormat.Holds 0x3000 (spell [] ++ [0]) := by decide
  have nothing : ∀ args, Prints lib unsignedFormat 0x4000 args 0x3000 [] := by
    intro args
    exact (prints_iff empty (by decide) (by decide)).mpr ⟨0, fun _ _ => rfl⟩
  have holds : unsignedFormat.Holds 0x1000 (spell ([] ++ unsignedPiece true :: []) ++ [0]) := by decide
  have printed := unsigned_prints library works (by decide) true holds (by decide) (by decide) empty empty
    (nothing fun _ => 0x8000000000000000) (nothing _)
  intro prints
  have same := printed.unique prints
  rw [List.nil_append, List.append_nil] at same
  exact itoaText_ne_decimal (by decide) _ same

/-- `printf("%lu", 1UL << 63)` writes a sign. -/
theorem printf_unsigned_fails :
    ¬Prints Lib.printfLibrary unsignedFormat 0x4000 (fun _ => 0x8000000000000000) 0x1000 (decimal (2 ^ 63)) ∧
      ¬Prints UserLibc.printfLibrary unsignedFormat 0x4000 (fun _ => 0x8000000000000000) 0x1000 (decimal (2 ^ 63)) :=
  ⟨not_prints_decimal (Or.inl rfl), not_prints_decimal (Or.inr rfl)⟩

end RaryOS.Soundness
