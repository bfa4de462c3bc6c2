import RaryOS.Proofs.Stdio

/-! # Where printf reads its format

The loops of both libraries step over the character behind a percent sign, and over the one behind an `l`, whether
it is the terminator or not. So they stay inside the format exactly if it does not end inside a directive.
-/

namespace RaryOS.Soundness

open RaryOS.Core RaryOS.Model

/-- The format is a sequence of whole pieces: characters other than a percent sign, and directives. -/
def Complete (text : List (BitVec 8)) : Prop := ∃ pieces, spell pieces = text

/-- The arguments match the directives: where a string is to be written, the argument points to one. -/
def ArgsMatch (lib : PrintfLibrary) (m : Memory) (args : ℕ → BitVec 64) (text : List (BitVec 8)) : Prop :=
  ∀ (before : List Piece) (p : Piece) (after : List (BitVec 8)), text = spell before ++ (p.bytes ++ after) →
    p.Matched lib m (args (argCount lib before))

/-- `printf` ends, and reads the format only up to its terminator. -/
def FormatReadsInside (lib : PrintfLibrary) (m : Memory) (buffer : ℕ) (args : ℕ → BitVec 64) (format : ℕ)
    (text : List (BitVec 8)) : Prop :=
  (∃ fuel, (printf lib m buffer args format fuel).value.isSome = true) ∧
    ∀ fuel, (printf lib m buffer args format fuel).Within (Span format (text.length + 1))

section Reads

variable {lib : PrintfLibrary} {digits : List (BitVec 8)} {m : Memory} {buffer : ℕ} {args : ℕ → BitVec 64}
  {format fuel : ℕ}

theorem complete_cons (p : Piece) {rest : List (BitVec 8)} (complete : Complete rest) : Complete (p.bytes ++ rest) := by
  obtain ⟨pieces, rfl⟩ := complete
  exact ⟨p :: pieces, spell_cons p pieces⟩

/-- A loop that ends and stays inside its format has taken whole pieces to the end. -/
theorem complete_of_inside {rest : List (BitVec 8)} {s : PrintfState} {rounds length : ℕ} {out : List (BitVec 8)}
    (holds : m.Holds (format + s.i) (rest ++ [0])) (small : s.i < 2 ^ 31) (last : s.i + rest.length = length)
    (nonzero : 0 ∉ rest) (ended : (printfFrom lib m buffer args format fuel rounds s).value = some out)
    (inside : (printfFrom lib m buffer args format fuel rounds s).Within (Span format (length + 1))) :
    Complete rest ∧ length < 2 ^ 31 := by
  induction rounds generalizing s rest with
  | zero => cases ended
  | succ rounds ih =>
    obtain ⟨here, later⟩ := printfFrom_within.mp inside
    rcases Decidable.em (rest = []) with rfl | nonempty
    · exact ⟨⟨[], rfl⟩, last ▸ small⟩
    have some_ := holds.first_ne_zero nonzero nonempty
    rw [printfFrom_of_nonzero some_] at ended
    obtain ⟨next, step, ended⟩ := Option.bind_eq_some_iff.mp ended
    have insideNext := (later some_).2 next step
    -- The next round reads at its index, if there is one.
    have bound : next.i ≤ length := by
      cases rounds with
      | zero => cases ended
      | succ rounds =>
        have reads := (printfFrom_within.mp insideNext).1.2
        omega
    obtain ⟨smallNext, p, piece, i⟩ := bodyNext_takes step
    obtain ⟨rest, rfl, -⟩ := ((Memory.holds_append _ _).mp holds).1.exists_rest piece (by omega)
    rw [List.append_assoc, Memory.holds_append, Nat.add_assoc, ← i] at holds
    rw [List.mem_append, not_or] at nonzero
    rw [List.length_append] at last
    have done := ih holds.2 smallNext (by omega) nonzero.2 ended insideNext
    exact ⟨complete_cons p done.1, done.2⟩

/-- With enough fuel pieces with matching arguments write their texts. -/
theorem exists_piecesText (library : LibraryOf lib digits) (given : buffer ≠ 0) {pieces : List Piece} {k : ℕ}
    (fit : ∀ before p after, pieces = before ++ p :: after → p.Matched lib m (args (k + argCount lib before))) :
    ∃ out enough, ∀ fuel, enough ≤ fuel → piecesText lib m buffer args fuel k pieces = some out := by
  induction pieces generalizing k with
  | nil => exact ⟨[], 0, fun _ _ => rfl⟩
  | cons p rest ih =>
    obtain ⟨t, first, text⟩ := exists_write library given (fit [] p rest rfl)
    have fitRest : ∀ before q after, rest = before ++ q :: after →
        q.Matched lib m (args (k + (p.conversion lib).arity + argCount lib before)) := by
      rintro before q after rfl
      have matched := fit (p :: before) q after rfl
      rw [argCount_cons, ← Nat.add_assoc] at matched
      exact matched
    obtain ⟨u, others, texts⟩ := ih fitRest
    refine ⟨t ++ u, max first others, fun fuel enough => ?_⟩
    rw [piecesText]
    rw [show argCount lib [] = 0 from rfl, Nat.add_zero] at text
    rw [text fuel (by omega), Option.bind_some, texts fuel (by omega), Option.map_some]

/-- For every format and matching arguments, in both libraries: `printf` ends and reads the format only up to its
terminator, if and only if the format does not end inside a directive and its indices are those of an `int`. -/
theorem printf_reads_inside_iff (library : lib = Lib.printfLibrary ∨ lib = UserLibc.printfLibrary)
    (given : buffer ≠ 0) {text : List (BitVec 8)} (holds : m.Holds format (text ++ [0])) (nonzero : 0 ∉ text)
    (fit : ArgsMatch lib m args text) :
    FormatReadsInside lib m buffer args format text ↔ Complete text ∧ text.length < 2 ^ 31 := by
  constructor
  · rintro ⟨⟨fuel, ended⟩, inside⟩
    obtain ⟨out, ended⟩ := Option.isSome_iff_exists.mp ended
    exact complete_of_inside (s := ⟨0, 0, []⟩) holds (by decide) (Nat.zero_add _) nonzero ended (inside fuel)
  · rintro ⟨⟨pieces, rfl⟩, small⟩
    have fits : 0 + (spell pieces).length < 2 ^ 31 := by rwa [Nat.zero_add]
    constructor
    · obtain ⟨digits, works⟩ := exists_libraryOf library
      have fitPieces : ∀ before p after, pieces = before ++ p :: after →
          p.Matched lib m (args (0 + argCount lib before)) := by
        rintro before p after rfl
        rw [Nat.zero_add]
        exact fit before p (spell after) (by rw [spell_append, spell_cons])
      obtain ⟨out, enough, written⟩ := exists_piecesText works given fitPieces
      refine ⟨max enough (pieces.length + 1), ?_⟩
      rw [printf, printfFrom_pieces_value (s := ⟨0, 0, []⟩) holds nonzero fits (by omega), written _ (by omega)]
      rfl
    · intro fuel
      exact printfFrom_pieces_within (s := ⟨0, 0, []⟩) holds nonzero fits fuel

end Reads

/-- A format at 0x1000 in an otherwise empty memory. -/
def formatMemory (text : List (BitVec 8)) : Memory := fun address => text.getD (address - 0x1000) 0

/-- `printf("%s%u", format, format)`. -/
theorem printf_reads_inside_iff_sample :
    FormatReadsInside Lib.printfLibrary (formatMemory [ch '%', ch 's', ch '%', ch 'u']) 0x2000 (fun _ => 0x1000) 0x1000
      [ch '%', ch 's', ch '%', ch 'u'] := by
  have holds : (formatMemory [ch '%', ch 's', ch '%', ch 'u']).Holds 0x1000
      ([ch '%', ch 's', ch '%', ch 'u'] ++ [0]) := by
    decide
  have fit : ArgsMatch Lib.printfLibrary (formatMemory [ch '%', ch 's', ch '%', ch 'u']) (fun _ => 0x1000)
      [ch '%', ch 's', ch '%', ch 'u'] :=
    fun _ _ _ _ _ => ⟨_, by decide, holds⟩
  apply (printf_reads_inside_iff (Or.inl rfl) (by decide) holds (by decide) fit).mpr
  exact ⟨⟨[.directive (ch 's') (by decide), .directive (ch 'u') (by decide)], rfl⟩, by decide⟩

/-- A format at 0x1000 that `printf` of the library does not stay inside, with an argument that points to it. -/
def FormatOverrun (lib : PrintfLibrary) (text : List (BitVec 8)) : Prop :=
  (formatMemory text).Holds 0x1000 (text ++ [0]) ∧ ArgsMatch lib (formatMemory text) (fun _ => 0x1000) text ∧
    ¬FormatReadsInside lib (formatMemory text) 0x2000 (fun _ => 0x1000) 0x1000 text

/-- A place behind the terminator is read with this fuel. -/
theorem formatOverrun_of_read {lib : PrintfLibrary} {text : List (BitVec 8)} (fuel : ℕ)
    (holds : (formatMemory text).Holds 0x1000 (text ++ [0])) (clear : 0 ∉ text)
    (past : 0x1000 + (text.length + 1) ∈ (printf lib (formatMemory text) 0x2000 (fun _ => 0x1000) 0x1000 fuel).reads) :
    FormatOverrun lib text := by
  refine ⟨holds, fun _ _ _ _ _ => ⟨text, clear, holds⟩, ?_⟩
  rintro ⟨-, inside⟩
  exact absurd (inside fuel _ past).2 (Nat.lt_irrefl _)

/-- Formats that end in a percent sign, or in one with an `l`: the loop goes on behind the terminator. -/
theorem printf_reads_inside_fails :
    (FormatOverrun Lib.printfLibrary [ch '%'] ∧ FormatOverrun Lib.printfLibrary [ch '%', ch 'l']) ∧
      FormatOverrun UserLibc.printfLibrary [ch '%'] ∧ FormatOverrun UserLibc.printfLibrary [ch '%', ch 'l'] := by
  refine ⟨⟨?_, ?_⟩, ?_, ?_⟩
  · exact formatOverrun_of_read 3 (by decide) (by decide) (by decide)
  · exact formatOverrun_of_read 3 (by decide) (by decide) (by decide)
  · exact formatOverrun_of_read 3 (by decide) (by decide) (by decide)
  · exact formatOverrun_of_read 3 (by decide) (by decide) (by decide)

end RaryOS.Soundness
