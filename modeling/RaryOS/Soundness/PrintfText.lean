import RaryOS.Proofs.Stdio

/-! # What printf writes

The format is cut into pieces, and each piece writes what its directive makes of its argument: a string as it
stands in memory, a number as itoa spells it. Both libraries print a format this way, each with its own directives.
-/

namespace RaryOS.Soundness

open RaryOS.Core RaryOS.Model

/-- What stands for an argument: a string, or the word itself. -/
inductive Argument where
  | text (bytes : List (BitVec 8))
  | word (value : BitVec 64)
deriving DecidableEq

/-- The slot holds the argument. -/
def Argument.Is (m : Memory) (slot : BitVec 64) : Argument → Prop
  | .text bytes => 0 ∉ bytes ∧ m.Holds slot.toNat (bytes ++ [0])
  | .word value => slot = value

/-- How long a string is. -/
def Argument.length : Argument → ℕ
  | .text bytes => bytes.length
  | .word _ => 0

/-- The pieces of a format, if it does not end inside a directive. -/
def pieces : List (BitVec 8) → Option (List Piece)
  | [] => some []
  | c :: rest =>
    if percent : c = ch '%' then
      match rest with
      | [] => none
      | d :: rest =>
        if long : d = ch 'l' then
          match rest with
          | [] => none
          | e :: rest => (pieces rest).map (.long e :: ·)
        else (pieces rest).map (.directive d long :: ·)
    else (pieces rest).map (.plain c percent :: ·)

/-- What a directive makes of its argument. -/
def convert (lib : PrintfLibrary) (digits : List (BitVec 8)) : Directive → Option Argument → Option (List (BitVec 8))
  | .text bytes, _ => some bytes
  | .string, some (.text bytes) => some bytes
  | .char, some (.word value) => some (lib.writeChar (value.setWidth 8))
  | .number type base lead, some (.word value) => some (lead ++ itoaText digits (type.toLong value) base)
  | _, _ => none

/-- Piece by piece, each with the arguments that are left. -/
def render (lib : PrintfLibrary) (digits : List (BitVec 8)) : List Piece → List Argument → Option (List (BitVec 8))
  | [], _ => some []
  | p :: rest, args =>
    (convert lib digits (p.conversion lib) args.head?).bind fun t =>
      (render lib digits rest (args.drop (p.conversion lib).arity)).map (t ++ ·)

/-- The text that a format makes of the arguments. -/
def formatText (lib : PrintfLibrary) (digits text : List (BitVec 8)) (args : List Argument) :
    Option (List (BitVec 8)) :=
  (pieces text).bind fun ps => render lib digits ps args

section Format

variable {lib : PrintfLibrary} {digits : List (BitVec 8)} {m : Memory} {buffer : ℕ} {slots : ℕ → BitVec 64}
  {format fuel : ℕ} {args : List Argument} {text out : List (BitVec 8)}

/-- The pieces spell the format. -/
theorem spell_pieces {ps : List Piece} (cut : pieces text = some ps) : spell ps = text := by
  induction text using pieces.induct generalizing ps with
  | case1 => exact (Option.some.inj cut) ▸ rfl
  | case2 => cases cut
  | case3 => cases cut
  | case4 e rest ih =>
    rw [pieces.eq_def] at cut
    simp only [↓reduceDIte] at cut
    obtain ⟨others, later, rfl⟩ := Option.map_eq_some_iff.mp cut
    rw [spell_cons, ih later]
    rfl
  | case5 d rest long ih =>
    rw [pieces.eq_def] at cut
    simp only [↓reduceDIte, dif_neg long] at cut
    obtain ⟨others, later, rfl⟩ := Option.map_eq_some_iff.mp cut
    rw [spell_cons, ih later]
    rfl
  | case6 c rest percent ih =>
    rw [pieces.eq_def] at cut
    simp only [dif_neg percent] at cut
    obtain ⟨others, later, rfl⟩ := Option.map_eq_some_iff.mp cut
    rw [spell_cons, ih later]
    rfl

/-- There are no more pieces than characters. -/
theorem length_le_spell (ps : List Piece) : ps.length ≤ (spell ps).length := by
  induction ps with
  | nil => exact Nat.zero_le _
  | cons p rest ih =>
    have positive : 0 < p.bytes.length := List.length_pos_of_ne_nil p.bytes_ne_nil
    rw [spell_cons, List.length_cons, List.length_append]
    omega

/-- A directive writes what it makes of its argument. -/
theorem write_value (library : LibraryOf lib digits) (given : buffer ≠ 0) {p : Piece} {slot : BitVec 64}
    (is : ∀ a : Argument, args.head? = some a → a.Is m slot) (enough : 21 ≤ fuel) (long : ∀ a ∈ args, a.length < fuel)
    {t : List (BitVec 8)} (made : convert lib digits (p.conversion lib) args.head? = some t) :
    (((p.conversion lib).write lib buffer slot fuel).run m).value = some t := by
  have bases := library.bases p
  rcases args with _ | ⟨a, rest⟩
  · cases same : p.conversion lib <;> rw [same] at made <;> cases made
    rfl
  have is := is a rfl
  have short := long a (List.mem_cons_self ..)
  cases same : p.conversion lib with
  | text bytes =>
    rw [same] at made
    cases made
    rfl
  | string =>
    rw [same] at made
    cases a with
    | text bytes =>
      cases made
      obtain ⟨_, value, ⟨rfl, -⟩, -⟩ := cString_ensures (i := 0) is.2 is.1 short
      exact value
    | word value => cases made
  | char =>
    rw [same] at made
    cases a with
    | text bytes => cases made
    | word value =>
      cases made
      rw [show slot = value from is]
      rfl
  | number type base lead =>
    rw [same] at made
    cases a with
    | text bytes => cases made
    | word value =>
      cases made
      rw [show slot = value from is]
      exact number_value library given (bases type base lead same) value enough

theorem piecesText_render (library : LibraryOf lib digits) (given : buffer ≠ 0) {ps : List Piece} {k : ℕ}
    (are : ∀ j (a : Argument), args[j]? = some a → a.Is m (slots (k + j))) (enough : 21 ≤ fuel)
    (long : ∀ a ∈ args, a.length < fuel)
    (made : render lib digits ps args = some out) : piecesText lib m buffer slots fuel k ps = some out := by
  induction ps generalizing k args out with
  | nil => exact made
  | cons p rest ih =>
    rw [render, Option.bind_eq_some_iff] at made
    obtain ⟨t, here, made⟩ := made
    obtain ⟨u, later, rfl⟩ := Option.map_eq_some_iff.mp made
    have first : ∀ a, args.head? = some a → a.Is m (slots k) := by
      intro a head
      rw [List.head?_eq_getElem?] at head
      exact are 0 a head
    rw [piecesText, write_value library given first enough long here, Option.bind_some, ih ?_ ?_ later]
    · rfl
    · intro j a found
      rw [List.getElem?_drop] at found
      rw [Nat.add_assoc]
      exact are _ a found
    · exact fun a member => long a (List.mem_of_mem_drop member)

/-- For every format that is cut into pieces and all arguments that its directives can take: `printf` writes the
text that the format makes of them. -/
theorem printf_value (library : LibraryOf lib digits) (given : buffer ≠ 0) (holds : m.Holds format (text ++ [0]))
    (nonzero : 0 ∉ text) (small : text.length < 2 ^ 31) (are : ∀ j (a : Argument), args[j]? = some a → a.Is m (slots j))
    (enough : text.length + 21 ≤ fuel) (long : ∀ a ∈ args, a.length < fuel)
    (made : formatText lib digits text args = some out) :
    (printf lib m buffer slots format fuel).value = some out := by
  obtain ⟨ps, cut, made⟩ := Option.bind_eq_some_iff.mp made
  have count := length_le_spell ps
  rw [← spell_pieces cut] at holds nonzero small enough
  have fits : 0 + (spell ps).length < 2 ^ 31 := by rwa [Nat.zero_add]
  rw [printf, printfFrom_pieces_value (s := ⟨0, 0, []⟩) holds nonzero fits (by omega),
    piecesText_render library given (k := 0) (by simpa only [Nat.zero_add] using are) (by omega) long made]
  rfl

/-- A piece in front of a format. -/
theorem formatText_piece (p : Piece) (rest : List (BitVec 8)) :
    formatText lib digits (p.bytes ++ rest) args =
      (convert lib digits (p.conversion lib) args.head?).bind fun t =>
        (formatText lib digits rest (args.drop (p.conversion lib).arity)).map (t ++ ·) := by
  have cut : pieces (p.bytes ++ rest) = (pieces rest).map (p :: ·) := by
    cases p with
    | plain c other =>
      rw [pieces.eq_def]
      exact dif_neg other
    | directive c other =>
      rw [pieces.eq_def]
      simp only [Piece.bytes, List.cons_append, List.nil_append, ↓reduceDIte, dif_neg other]
    | long c =>
      rw [pieces.eq_def]
      simp only [Piece.bytes, List.cons_append, List.nil_append, ↓reduceDIte]
  rw [formatText, cut]
  cases same : pieces rest with
  | none =>
    simp only [formatText, same, Option.map_none, Option.bind_none]
    cases convert lib digits (p.conversion lib) args.head? <;> rfl
  | some ps => simp only [formatText, same, Option.map_some, Option.bind_some, render]

/-- Text without a percent sign in front of a format. -/
theorem formatText_plain {front : List (BitVec 8)} (clear : ch '%' ∉ front) (rest : List (BitVec 8)) :
    formatText lib digits (front ++ rest) args = (formatText lib digits rest args).map (front ++ ·) := by
  induction front with
  | nil => exact Option.map_id'.symm
  | cons c others ih =>
    rw [List.mem_cons, not_or] at clear
    have first : formatText lib digits (c :: others ++ rest) args =
        (formatText lib digits (others ++ rest) args).map (c :: ·) :=
      formatText_piece (.plain c (Ne.symm clear.1)) (others ++ rest)
    rw [first, ih clear.2, Option.map_map]
    rfl

theorem formatText_plain_only (clear : ch '%' ∉ text) : formatText lib digits text args = some text := by
  have whole : formatText lib digits (text ++ []) args = some (text ++ []) := formatText_plain clear []
  rwa [List.append_nil] at whole

/-! ## The two libraries -/

/-- A piece that means the same in both libraries: all but hexadecimal numbers, characters and unknown directives. -/
def Piece.shared : Piece → Bool
  | .plain _ _ => true
  | .directive c _ => c = ch 's' ∨ c = ch 'd' ∨ c = ch 'u' ∨ c = ch '%'
  | .long c => c = ch 'd' ∨ c = ch 'u'

/-- Decimal digits are the same in both libraries. -/
theorem itoaText_ten (value : BitVec 64) : itoaText Lib.digits value 10 = itoaText UserLibc.digits value 10 := by
  have figures : ∀ d < 10, Lib.digits.getD d 0 = UserLibc.digits.getD d 0 := by decide
  have same (n : ℕ) : numeral (Lib.digits.getD · 0) 10 n = numeral (UserLibc.digits.getD · 0) 10 n :=
    numeral_congr (by decide) figures n
  rw [itoaText, itoaText, same]
  split
  · rfl
  · exact same _

theorem convert_shared {p : Piece} (shared : Piece.shared p = true) (a : Option Argument) :
    convert Lib.printfLibrary Lib.digits (p.conversion Lib.printfLibrary) a =
        convert UserLibc.printfLibrary UserLibc.digits (p.conversion UserLibc.printfLibrary) a ∧
      (p.conversion Lib.printfLibrary).arity = (p.conversion UserLibc.printfLibrary).arity := by
  have numbers (type : ArgType) : convert Lib.printfLibrary Lib.digits (.number type 10 []) a =
      convert UserLibc.printfLibrary UserLibc.digits (.number type 10 []) a := by
    rcases a with _ | bytes | value
    · rfl
    · rfl
    · exact congrArg some (itoaText_ten _)
  have strings : convert Lib.printfLibrary Lib.digits .string a =
      convert UserLibc.printfLibrary UserLibc.digits .string a := by
    rcases a with _ | bytes | value <;> rfl
  cases p with
  | plain c other => exact ⟨rfl, rfl⟩
  | directive c other =>
    rw [Piece.shared, decide_eq_true_eq] at shared
    rcases shared with rfl | rfl | rfl | rfl
    · exact ⟨strings, rfl⟩
    · exact ⟨numbers _, rfl⟩
    · exact ⟨numbers _, rfl⟩
    · exact ⟨rfl, rfl⟩
  | long c =>
    rw [Piece.shared, decide_eq_true_eq] at shared
    rcases shared with rfl | rfl
    · exact ⟨numbers _, rfl⟩
    · exact ⟨numbers _, rfl⟩

theorem render_shared {ps : List Piece} (shared : ∀ p ∈ ps, Piece.shared p = true) :
    render Lib.printfLibrary Lib.digits ps args = render UserLibc.printfLibrary UserLibc.digits ps args := by
  induction ps generalizing args with
  | nil => rfl
  | cons p rest ih =>
    rw [List.forall_mem_cons] at shared
    obtain ⟨text, arity⟩ := convert_shared shared.1 args.head?
    rw [render, render, text, arity, ih shared.2]

/-- For every format of plain text and the directives `%s`, `%d`, `%u`, `%%`, `%ld` and `%lu`, and for all arguments
that these can take, `printf` of the kernel's library and `printf` of the user library write the same text, which is
the one that the format makes of the arguments. -/
theorem printfs_agree (given : buffer ≠ 0) (holds : m.Holds format (text ++ [0])) (nonzero : 0 ∉ text)
    (small : text.length < 2 ^ 31) {ps : List Piece} (cut : pieces text = some ps)
    (shared : ∀ p ∈ ps, Piece.shared p = true) (are : ∀ j (a : Argument), args[j]? = some a → a.Is m (slots j))
    (enough : text.length + 21 ≤ fuel) (long : ∀ a ∈ args, a.length < fuel)
    (made : formatText Lib.printfLibrary Lib.digits text args = some out) :
    (printf Lib.printfLibrary m buffer slots format fuel).value = some out ∧
      (printf UserLibc.printfLibrary m buffer slots format fuel).value = some out := by
  have same : formatText UserLibc.printfLibrary UserLibc.digits text args = some out := by
    rw [formatText, cut, Option.bind_some] at made ⊢
    rw [← render_shared shared, made]
  exact ⟨printf_value lib_libraryOf given holds nonzero small are enough long made,
    printf_value userLibc_libraryOf given holds nonzero small are enough long same⟩

end Format

/-- The format `a%lu%s` at 0x1000, and the string `b` at 0x2000. -/
def printfSample : Memory := fun address =>
  if address = 0x2000 then ch 'b' else [ch 'a', ch '%', ch 'l', ch 'u', ch '%', ch 's'].getD (address - 0x1000) 0

/-- With the arguments 12 and `b`. -/
theorem printfs_agree_sample :
    (printf Lib.printfLibrary printfSample 0x4000 (fun k => [12, 0x2000].getD k 0) 0x1000 40).value =
        some [ch 'a', ch '1', ch '2', ch 'b'] ∧
      (printf UserLibc.printfLibrary printfSample 0x4000 (fun k => [12, 0x2000].getD k 0) 0x1000 40).value =
        some [ch 'a', ch '1', ch '2', ch 'b'] := by
  have are : ∀ j (a : Argument), [Argument.word 12, .text [ch 'b']][j]? = some a →
      a.Is printfSample ([12, 0x2000].getD j 0) := by
    intro j a found
    rcases j with _ | _ | j
    · cases found
      rfl
    · cases found
      exact ⟨by decide, by decide⟩
    · cases found
  have holds : printfSample.Holds 0x1000 ([ch 'a', ch '%', ch 'l', ch 'u', ch '%', ch 's'] ++ [0]) := by decide
  have cut : pieces [ch 'a', ch '%', ch 'l', ch 'u', ch '%', ch 's'] =
      some [.plain (ch 'a') (by decide), .long (ch 'u'), .directive (ch 's') (by decide)] := rfl
  exact printfs_agree (by decide) holds (by decide) (by decide) cut (by decide) are (by decide) (by decide) (by decide)

end RaryOS.Soundness
