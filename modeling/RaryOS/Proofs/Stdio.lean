import RaryOS.Model.Stdio
import RaryOS.Proofs.Stdlib

/-! # Formats in pieces

A format is a sequence of pieces: plain characters and directives, with one letter or with an `l` before it. A
round of the loop of `printf` takes one piece. What is written is the sequence of what the pieces write, each with
its own argument.
-/

namespace RaryOS.Model

open RaryOS.Core

/-- A plain character or a directive. -/
inductive Piece where
  | plain (c : BitVec 8) (other : c ≠ ch '%')
  | directive (c : BitVec 8) (other : c ≠ ch 'l')
  | long (c : BitVec 8)

namespace Piece

def bytes : Piece → List (BitVec 8)
  | plain c _ => [c]
  | directive c _ => [ch '%', c]
  | long c => [ch '%', ch 'l', c]

/-- What the library does for the piece. -/
def conversion (lib : PrintfLibrary) : Piece → Directive
  | plain c _ => .text [c]
  | directive c _ => lib.directive c
  | long c => lib.longDirective c

end Piece

/-- The format that the pieces make. -/
def spell (pieces : List Piece) : List (BitVec 8) := pieces.flatMap Piece.bytes

theorem spell_cons (p : Piece) (rest : List Piece) : spell (p :: rest) = p.bytes ++ spell rest := List.flatMap_cons

theorem spell_append (first rest : List Piece) : spell (first ++ rest) = spell first ++ spell rest :=
  List.flatMap_append

/-- How many arguments the pieces take. -/
def argCount (lib : PrintfLibrary) (pieces : List Piece) : ℕ := (pieces.map fun p => (p.conversion lib).arity).sum

theorem argCount_cons (lib : PrintfLibrary) (p : Piece) (rest : List Piece) :
    argCount lib (p :: rest) = (p.conversion lib).arity + argCount lib rest := by
  rw [argCount, argCount, List.map_cons, List.sum_cons]

section Directives

variable {m : Memory} {buffer : ℕ}

theorem cString_ensures {text : List (BitVec 8)} {s i fuel : ℕ} (holds : m.Holds (s + i) (text ++ [0]))
    (nonzero : 0 ∉ text) (enough : text.length < fuel) :
    (cString s fuel i).Ensures m (Span (s + i) (text.length + 1)) (fun _ => False) fun t m' => t = text ∧ m' = m := by
  induction text generalizing i fuel with
  | nil =>
    obtain ⟨fuel, rfl⟩ := Nat.exists_eq_add_one_of_ne_zero (Nat.ne_zero_of_lt enough)
    rw [cString]
    apply Prog.Ensures.read_bind ⟨le_rfl, by omega⟩
    rw [if_neg (not_not.mpr holds.1)]
    exact .pure ⟨rfl, rfl⟩
  | cons c rest ih =>
    obtain ⟨fuel, rfl⟩ := Nat.exists_eq_add_one_of_ne_zero (Nat.ne_zero_of_lt enough)
    rw [List.mem_cons, not_or] at nonzero
    rw [List.length_cons] at enough ⊢
    rw [cString]
    apply Prog.Ensures.read_bind ⟨le_rfl, by omega⟩
    rw [if_pos (holds.1 ▸ Ne.symm nonzero.1)]
    apply Prog.Ensures.bind _ ((ih holds.2 nonzero.2 (show rest.length < fuel by omega)).mono
      (fun _ => Span.widen (by omega) (by omega)) (fun _ never => never) fun _ _ post => post)
    rintro _ _ ⟨rfl, rfl⟩
    rw [holds.1]
    exact .pure ⟨rfl, rfl⟩

/-- A library with this array of digits: its itoa writes the text of the number, and its numbers are in base 10
or 16. -/
structure LibraryOf (lib : PrintfLibrary) (digits : List (BitVec 8)) : Prop where
  alphabet : Digits digits
  itoa : ∀ value base m buffer fuel, base = 10 ∨ base = 16 → buffer ≠ 0 → 21 ≤ fuel →
    (lib.itoa value buffer base fuel).Ensures m (Span buffer 21) (Span buffer 21)
      fun _ m' => m'.Holds buffer (itoaText digits value base ++ [0])
  bases : ∀ (p : Piece) type base lead, p.conversion lib = .number type base lead → base = 10 ∨ base = 16

theorem lib_libraryOf : LibraryOf Lib.printfLibrary Lib.digits where
  alphabet := lib_digits
  itoa := by
    intro value base m buffer fuel ten given enough
    change (do let _ ← Lib.itoa value buffer base fuel; return ()).Ensures _ _ _ _
    apply Prog.Ensures.bind _ (lib_itoa_ensures value ten given enough)
    intro _ _ holds
    exact .pure holds
  bases := by
    intro p type base lead same
    cases p <;> simp only [Piece.conversion, Lib.printfLibrary, Lib.directive, Lib.longDirective] at same <;> grind

theorem userLibc_libraryOf : LibraryOf UserLibc.printfLibrary UserLibc.digits where
  alphabet := userLibc_digits
  itoa := fun value _ _ _ _ ten _ enough => userLibc_itoa_ensures value ten enough
  bases := by
    intro p type base lead same
    cases p <;> simp only [Piece.conversion, UserLibc.printfLibrary, UserLibc.directive, UserLibc.longDirective] at same
      <;> grind

variable {lib : PrintfLibrary} {digits : List (BitVec 8)}

theorem exists_libraryOf (library : lib = Lib.printfLibrary ∨ lib = UserLibc.printfLibrary) :
    ∃ digits, LibraryOf lib digits := by
  rcases library with rfl | rfl
  · exact ⟨_, lib_libraryOf⟩
  · exact ⟨_, userLibc_libraryOf⟩

/-- A number is written as its prefix and the text of itoa. -/
theorem number_value (library : LibraryOf lib digits) (given : buffer ≠ 0) {type : ArgType} {base : BitVec 32}
    {lead : List (BitVec 8)} (ten : base = 10 ∨ base = 16) (slot : BitVec 64) {fuel : ℕ} (enough : 21 ≤ fuel) :
    (((Directive.number type base lead).write lib buffer slot fuel).run m).value =
      some (lead ++ itoaText digits (type.toLong slot) base) := by
  have clear := itoaText_nonzero library.alphabet (type.toLong slot) ten
  have short : (itoaText digits (type.toLong slot) base).length ≤ 20 := length_itoaText _ ten
  have written : ((Directive.number type base lead).write lib buffer slot fuel).Ensures m (Span buffer 21)
      (Span buffer 21) fun t _ => t = lead ++ itoaText digits (type.toLong slot) base := by
    apply Prog.Ensures.bind _ (library.itoa (type.toLong slot) base m buffer fuel ten given enough)
    intro _ m' holds
    apply Prog.Ensures.bind _ ((cString_ensures (i := 0) holds clear (by omega)).mono
      (fun _ => Span.widen (by omega) (by omega)) (fun _ never => never.elim) fun _ _ post => post)
    rintro _ _ ⟨rfl, -⟩
    exact .pure rfl
  obtain ⟨_, value, rfl, -⟩ := written
  exact value

/-- The argument of a piece that writes a string points to one. -/
def Piece.Matched (lib : PrintfLibrary) (m : Memory) (p : Piece) (slot : BitVec 64) : Prop :=
  p.conversion lib = .string → ∃ text, 0 ∉ text ∧ m.Holds slot.toNat (text ++ [0])

/-- With enough fuel a piece writes its text. -/
theorem exists_write (library : LibraryOf lib digits) (given : buffer ≠ 0) {p : Piece} {slot : BitVec 64}
    (matched : p.Matched lib m slot) :
    ∃ t enough, ∀ fuel, enough ≤ fuel → (((p.conversion lib).write lib buffer slot fuel).run m).value = some t := by
  cases same : p.conversion lib with
  | text bytes => exact ⟨bytes, 0, fun _ _ => rfl⟩
  | string =>
    obtain ⟨text, clear, holds⟩ := matched same
    refine ⟨text, text.length + 1, fun fuel enough => ?_⟩
    obtain ⟨_, value, ⟨rfl, -⟩, -⟩ := cString_ensures (i := 0) holds clear enough
    exact value
  | char => exact ⟨lib.writeChar (slot.setWidth 8), 0, fun _ _ => rfl⟩
  | number type base lead =>
    exact ⟨_, 21, fun fuel enough => number_value library given (library.bases p type base lead same) slot enough⟩

end Directives

section Loop

variable {lib : PrintfLibrary} {m : Memory} {buffer : ℕ} {args : ℕ → BitVec 64} {format fuel rounds : ℕ}
  {s : PrintfState}

/-- The state for the next round. -/
def bodyNext (lib : PrintfLibrary) (m : Memory) (buffer : ℕ) (args : ℕ → BitVec 64) (format fuel : ℕ)
    (s : PrintfState) : Option PrintfState :=
  (printfBody lib m buffer args format (m (format + s.i)) fuel s).value.bind printfNext

theorem printfFrom_of_zero (zero : m (format + s.i) = 0) :
    (printfFrom lib m buffer args format fuel (rounds + 1) s).value = some s.out := by
  rw [printfFrom, Reading.value_bind, Memory.value_readByte, if_neg (not_not.mpr zero)]
  rfl

theorem printfFrom_of_nonzero (nonzero : m (format + s.i) ≠ 0) :
    (printfFrom lib m buffer args format fuel (rounds + 1) s).value =
      (bodyNext lib m buffer args format fuel s).bind fun s =>
        (printfFrom lib m buffer args format fuel rounds s).value := by
  rw [printfFrom, Reading.value_bind, Memory.value_readByte, if_pos nonzero, Reading.value_bind, bodyNext]
  cases (printfBody lib m buffer args format (m (format + s.i)) fuel s).value.bind printfNext <;> rfl

/-- The reads of a round and of the rounds after it. -/
theorem printfFrom_within {good : ℕ → Prop} :
    (printfFrom lib m buffer args format fuel (rounds + 1) s).Within good ↔
      good (format + s.i) ∧ (m (format + s.i) ≠ 0 →
        (printfBody lib m buffer args format (m (format + s.i)) fuel s).Within good ∧
          ∀ next, bodyNext lib m buffer args format fuel s = some next →
            (printfFrom lib m buffer args format fuel rounds next).Within good) := by
  rw [printfFrom, Reading.within_bind, Memory.within_readByte, Memory.value_readByte]
  apply and_congr_right
  intro _
  split
  · next nonzero =>
    rw [Reading.within_bind, imp_iff_right nonzero, bodyNext]
    apply and_congr_right
    intro _
    cases (printfBody lib m buffer args format (m (format + s.i)) fuel s).value.bind printfNext with
    | none => simp
    | some next => simp
  · next zero =>
    apply iff_of_true
    · exact Reading.within_pure _
    · exact fun nonzero => absurd nonzero zero

theorem printfNext_eq_some {next : PrintfState} (step : printfNext s = some next) :
    s.i + 1 < 2 ^ 31 ∧ next = { s with i := s.i + 1 } := by
  rw [printfNext] at step
  split at step
  · next small => exact ⟨small, (Option.some.inj step).symm⟩
  · cases step

theorem printfDirective_i {d : Directive} {next : PrintfState}
    (step : printfDirective lib m buffer args d fuel s = some next) : next.i = s.i := by
  obtain ⟨text, -, rfl⟩ := Option.map_eq_some_iff.mp step
  rfl

/-- What a round does: it takes a character, a directive with one letter, or one with an `l`, whatever they are,
and the index stays an `int`. -/
theorem bodyNext_takes {next : PrintfState} (step : bodyNext lib m buffer args format fuel s = some next) :
    next.i < 2 ^ 31 ∧ ∃ p : Piece, m.Holds (format + s.i) p.bytes ∧ next.i = s.i + p.bytes.length := by
  obtain ⟨done, body, last⟩ := Option.bind_eq_some_iff.mp step
  obtain ⟨small, rfl⟩ := printfNext_eq_some last
  refine ⟨small, ?_⟩
  rw [printfBody] at body
  split at body
  · next plain =>
    obtain rfl := Option.some.inj body
    exact ⟨.plain _ plain, ⟨rfl, trivial⟩, rfl⟩
  · next percent =>
    cases second : printfNext s with
    | none => rw [second] at body; cases body
    | some s₁ =>
      obtain ⟨-, rfl⟩ := printfNext_eq_some second
      rw [second] at body
      dsimp only at body
      rw [Reading.value_bind, Memory.value_readByte] at body
      split at body
      · next long =>
        cases third : printfNext { s with i := s.i + 1 } with
        | none => rw [third] at body; cases body
        | some s₂ =>
          obtain ⟨-, rfl⟩ := printfNext_eq_some third
          rw [third] at body
          exact ⟨.long (m (format + s.i + 2)), ⟨not_not.mp percent, long, rfl, trivial⟩,
            congrArg (· + 1) (printfDirective_i body)⟩
      · next other =>
        exact ⟨.directive _ other, ⟨not_not.mp percent, rfl, trivial⟩, congrArg (· + 1) (printfDirective_i body)⟩

theorem printfNext_of_lt (small : s.i + 1 < 2 ^ 31) : printfNext s = some { s with i := s.i + 1 } := if_pos small

/-- A directive whose last character is at the index, and the step behind it. -/
theorem printfDirective_next {d : Directive} (small : s.i + 1 < 2 ^ 31) :
    (printfDirective lib m buffer args d fuel s).bind printfNext =
      ((d.write lib buffer (args s.arg) fuel).run m).value.map fun t =>
        ⟨s.i + 1, s.arg + d.arity, s.out ++ t⟩ := by
  rw [printfDirective]
  cases ((d.write lib buffer (args s.arg) fuel).run m).value with
  | none => rfl
  | some t => exact if_pos small

/-- The round for a piece takes its bytes and writes its text. -/
theorem bodyNext_piece {p : Piece} (holds : m.Holds (format + s.i) p.bytes) (fits : s.i + p.bytes.length < 2 ^ 31) :
    bodyNext lib m buffer args format fuel s =
      (((p.conversion lib).write lib buffer (args s.arg) fuel).run m).value.map fun t =>
        ⟨s.i + p.bytes.length, s.arg + (p.conversion lib).arity, s.out ++ t⟩ := by
  cases p with
  | plain c other =>
    rw [bodyNext, holds.1, printfBody, if_pos other]
    exact if_pos fits
  | directive c other =>
    obtain ⟨percent, letter, -⟩ := holds
    have first : s.i + 1 < 2 ^ 31 := Nat.lt_of_succ_lt fits
    rw [bodyNext, percent, printfBody, if_neg (not_not.mpr rfl), printfNext_of_lt first]
    dsimp only
    rw [Reading.value_bind, Memory.value_readByte, ← Nat.add_assoc, letter, if_neg other]
    exact printfDirective_next fits
  | long c =>
    obtain ⟨percent, l, letter, -⟩ := holds
    have second : s.i + 1 + 1 < 2 ^ 31 := Nat.lt_of_succ_lt fits
    have first : s.i + 1 < 2 ^ 31 := Nat.lt_of_succ_lt second
    rw [bodyNext, percent, printfBody, if_neg (not_not.mpr rfl), printfNext_of_lt first]
    dsimp only
    rw [Reading.value_bind, Memory.value_readByte, ← Nat.add_assoc, l, if_pos rfl, printfNext_of_lt second]
    dsimp only
    rw [Reading.value_bind, Memory.value_readByte, ← Nat.add_assoc, ← Nat.add_assoc, letter]
    exact printfDirective_next fits

theorem printfBody_piece_within {good : ℕ → Prop} {p : Piece} (holds : m.Holds (format + s.i) p.bytes)
    (inside : ∀ k < p.bytes.length, good (format + s.i + k)) :
    (printfBody lib m buffer args format (m (format + s.i)) fuel s).Within good := by
  cases p with
  | plain c other =>
    rw [holds.1, printfBody, if_pos other]
    exact Reading.within_pure _
  | directive c other =>
    obtain ⟨percent, letter, -⟩ := holds
    rw [percent, printfBody, if_neg (not_not.mpr rfl)]
    cases first : printfNext s with
    | none => exact Reading.within_pure _
    | some s₁ =>
      obtain ⟨-, rfl⟩ := printfNext_eq_some first
      dsimp only
      rw [Reading.within_bind, Memory.within_readByte, Memory.value_readByte, ← Nat.add_assoc, letter, if_neg other]
      exact ⟨inside 1 (show 1 < 2 by decide), Reading.within_pure _⟩
  | long c =>
    obtain ⟨percent, l, letter, -⟩ := holds
    rw [percent, printfBody, if_neg (not_not.mpr rfl)]
    cases first : printfNext s with
    | none => exact Reading.within_pure _
    | some s₁ =>
      obtain ⟨-, rfl⟩ := printfNext_eq_some first
      dsimp only
      rw [Reading.within_bind, Memory.within_readByte, Memory.value_readByte, ← Nat.add_assoc, l, if_pos rfl]
      refine ⟨inside 1 (show 1 < 3 by decide), ?_⟩
      cases second : printfNext { s with i := s.i + 1 } with
      | none => exact Reading.within_pure _
      | some s₂ =>
        obtain ⟨-, rfl⟩ := printfNext_eq_some second
        dsimp only
        rw [Reading.within_bind, Memory.within_readByte]
        exact ⟨inside 2 (show 2 < 3 by decide), Reading.within_pure _⟩

end Loop

section Pieces

variable {lib : PrintfLibrary} {m : Memory} {buffer : ℕ} {args : ℕ → BitVec 64} {format fuel rounds : ℕ}

/-- What the pieces write, from argument `k` on. -/
def piecesText (lib : PrintfLibrary) (m : Memory) (buffer : ℕ) (args : ℕ → BitVec 64) (fuel : ℕ) :
    ℕ → List Piece → Option (List (BitVec 8))
  | _, [] => some []
  | k, p :: rest =>
    (((p.conversion lib).write lib buffer (args k) fuel).run m).value.bind fun t =>
      (piecesText lib m buffer args fuel (k + (p.conversion lib).arity) rest).map (t ++ ·)

theorem piecesText_append (k : ℕ) (first rest : List Piece) :
    piecesText lib m buffer args fuel k (first ++ rest) =
      (piecesText lib m buffer args fuel k first).bind fun t =>
        (piecesText lib m buffer args fuel (k + argCount lib first) rest).map (t ++ ·) := by
  induction first generalizing k with
  | nil => exact Option.map_id'.symm
  | cons p others ih =>
    rw [List.cons_append, piecesText, piecesText, ih, argCount_cons, ← Nat.add_assoc]
    cases (((p.conversion lib).write lib buffer (args k) fuel).run m).value with
    | none => rfl
    | some t =>
      rw [Option.bind_some, Option.bind_some]
      cases piecesText lib m buffer args fuel (k + (p.conversion lib).arity) others with
      | none => rfl
      | some u =>
        rw [Option.bind_some, Option.map_some, Option.bind_some, Option.map_map]
        congr 1
        apply funext
        intro v
        exact (List.append_assoc _ _ _).symm

/-- Pieces that take their arguments from further on. -/
theorem piecesText_shift (k j : ℕ) (pieces : List Piece) :
    piecesText lib m buffer args fuel (k + j) pieces =
      piecesText lib m buffer (fun i => args (k + i)) fuel j pieces := by
  induction pieces generalizing j with
  | nil => rfl
  | cons p rest ih => rw [piecesText, piecesText, Nat.add_assoc, ih]

theorem Piece.bytes_ne_nil (p : Piece) : p.bytes ≠ [] := by cases p <;> exact List.cons_ne_nil _ _

/-- A piece in memory in front of other text. -/
theorem holds_piece {p : Piece} {place : ℕ} {rest : List (BitVec 8)} (holds : m.Holds place (p.bytes ++ rest))
    (nonzero : 0 ∉ p.bytes) :
    m place ≠ 0 ∧ m.Holds place p.bytes ∧ m.Holds (place + p.bytes.length) rest := by
  obtain ⟨here, later⟩ := (Memory.holds_append _ _).mp holds
  exact ⟨holds.first_ne_zero nonzero p.bytes_ne_nil, here, later⟩

/-- On a format of whole pieces the loop reads up to the terminator. -/
theorem printfFrom_pieces_within {pieces : List Piece} {s : PrintfState}
    (holds : m.Holds (format + s.i) (spell pieces ++ [0])) (nonzero : 0 ∉ spell pieces)
    (fits : s.i + (spell pieces).length < 2 ^ 31) (rounds : ℕ) :
    (printfFrom lib m buffer args format fuel rounds s).Within
      (Span (format + s.i) ((spell pieces).length + 1)) := by
  induction pieces generalizing s rounds with
  | nil =>
    cases rounds with
    | zero => exact Reading.within_pure _
    | succ rounds =>
      rw [printfFrom_within]
      exact ⟨⟨le_rfl, Nat.lt_add_of_pos_right (by decide)⟩, fun nonzero => absurd holds.1 nonzero⟩
  | cons p rest ih =>
    cases rounds with
    | zero => exact Reading.within_pure _
    | succ rounds =>
      rw [spell_cons, List.append_assoc] at holds
      rw [spell_cons, List.mem_append, not_or] at nonzero
      rw [spell_cons, List.length_append] at fits ⊢
      obtain ⟨-, here, later⟩ := holds_piece holds nonzero.1
      rw [printfFrom_within]
      refine ⟨⟨le_rfl, by omega⟩, fun _ => ⟨?_, ?_⟩⟩
      · refine printfBody_piece_within here fun k bound => ?_
        exact ⟨by omega, by omega⟩
      · intro next step
        rw [bodyNext_piece here (by omega)] at step
        obtain ⟨t, -, rfl⟩ := Option.map_eq_some_iff.mp step
        have inside := ih (s := ⟨s.i + p.bytes.length, s.arg + (p.conversion lib).arity, s.out ++ t⟩)
          (by rw [← Nat.add_assoc]; exact later) nonzero.2 (by dsimp only; omega) rounds
        intro place member
        exact Span.widen (by dsimp only; omega) (by dsimp only; omega) (inside place member)

/-- On a format of whole pieces the loop writes their texts. -/
theorem printfFrom_pieces_value {pieces : List Piece} {s : PrintfState}
    (holds : m.Holds (format + s.i) (spell pieces ++ [0])) (nonzero : 0 ∉ spell pieces)
    (fits : s.i + (spell pieces).length < 2 ^ 31) (enough : pieces.length < rounds) :
    (printfFrom lib m buffer args format fuel rounds s).value =
      (piecesText lib m buffer args fuel s.arg pieces).map (s.out ++ ·) := by
  induction pieces generalizing s rounds with
  | nil =>
    obtain ⟨rounds, rfl⟩ := Nat.exists_eq_add_one_of_ne_zero (Nat.ne_zero_of_lt enough)
    rw [printfFrom_of_zero holds.1, piecesText, Option.map_some, List.append_nil]
  | cons p rest ih =>
    obtain ⟨rounds, rfl⟩ := Nat.exists_eq_add_one_of_ne_zero (Nat.ne_zero_of_lt enough)
    rw [spell_cons, List.append_assoc] at holds
    rw [spell_cons, List.mem_append, not_or] at nonzero
    rw [spell_cons, List.length_append] at fits
    obtain ⟨some_, here, later⟩ := holds_piece holds nonzero.1
    rw [printfFrom_of_nonzero some_, bodyNext_piece here (by omega), piecesText]
    cases (((p.conversion lib).write lib buffer (args s.arg) fuel).run m).value with
    | none => rfl
    | some t =>
      rw [Option.map_some, Option.bind_some, Option.bind_some]
      rw [ih (by rw [← Nat.add_assoc]; exact later) nonzero.2 (by dsimp only; omega)
        (Nat.lt_of_succ_lt_succ enough), Option.map_map]
      congr 1
      apply funext
      intro u
      exact List.append_assoc _ _ _

end Pieces

end RaryOS.Model
