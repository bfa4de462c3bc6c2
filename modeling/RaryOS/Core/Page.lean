import Mathlib.Data.Nat.Basic
import Mathlib.Tactic.Common

/-! # A page seen through a window

Text goes on a page of lines that has no end, and a screen shows the lines from `top` on, as many as it is high.
The window moves down by one line when the cursor leaves it, and never up, so that what has left the screen is
out of reach. A style says how wide and high the screen is, what a symbol looks like, and whether a backspace at
the left edge goes back to the line above. Two styles that differ in the looks only keep the same page, but for
the looks; and on a page that is wide and high enough a line is edited as a list is.
-/

namespace RaryOS.Core

/-- The cells by line and column, the cursor, and the first line of the window. -/
structure Page (α : Type*) where
  cell : ℕ → ℕ → α
  line : ℕ := 0
  column : ℕ := 0
  top : ℕ := 0

/-- How symbols of `σ` are put on a page with cells of `α`. -/
structure PageStyle (σ α : Type*) where
  width : ℕ
  height : ℕ
  newline : σ
  backspace : σ
  glyph : σ → α
  erased : α
  wraps : Bool

namespace Page

variable {σ α β : Type*} (st : PageStyle σ α) (p : Page α)

/-- The cell of the cursor. -/
def set (a : α) : Page α :=
  { p with cell := fun y x => if y = p.line ∧ x = p.column then a else p.cell y x }

/-- The cursor goes to the next line, and the window with it if need be. -/
def nextLine : Page α :=
  { p with
    line := p.line + 1
    column := 0
    top := if p.top + st.height ≤ p.line + 1 then p.top + 1 else p.top }

/-- The cursor goes to the next cell. -/
def advance : Page α :=
  if p.column + 1 = st.width then p.nextLine st else { p with column := p.column + 1 }

/-- The cursor goes one cell back, as far as it can. -/
def back : Page α :=
  if 0 < p.column then { p with column := p.column - 1 }
  else if st.wraps ∧ p.top < p.line then { p with line := p.line - 1, column := st.width - 1 }
  else p

variable [DecidableEq σ]

/-- One symbol. -/
def type (c : σ) : Page α :=
  if c = st.newline then p.nextLine st
  else if c = st.backspace then (p.back st).set st.erased
  else (p.set (st.glyph c)).advance st

/-- A text. -/
def write (text : List σ) : Page α := text.foldl (fun p c => p.type st c) p

@[simp] theorem write_nil : p.write st [] = p := rfl

@[simp] theorem write_cons (c : σ) (text : List σ) : p.write st (c :: text) = (p.type st c).write st text := rfl

@[simp] theorem write_append (first second : List σ) :
    p.write st (first ++ second) = (p.write st first).write st second :=
  List.foldl_append

/-- The cursor is in the window. -/
structure Inside : Prop where
  above : p.top ≤ p.line
  below : p.line < p.top + st.height
  column : p.column < st.width

/-- A symbol for the left edge: a backspace that cannot go back in a style without wrapping. -/
def AtEdge : Prop := p.column = 0 ∧ p.top < p.line

instance : Decidable p.AtEdge := inferInstanceAs (Decidable (_ ∧ _))

variable {st p}

/-! ## The cursor stays in the window -/

section Inside

omit [DecidableEq σ]

theorem Inside.set (inside : p.Inside st) (a : α) : (p.set a).Inside st := ⟨inside.above, inside.below, inside.column⟩

theorem Inside.nextLine (inside : p.Inside st) : (p.nextLine st).Inside st := by
  have above := inside.above
  have below := inside.below
  have column := inside.column
  refine ⟨?_, ?_, Nat.zero_lt_of_lt column⟩ <;> simp only [Page.nextLine] <;> split <;> omega

theorem Inside.advance (inside : p.Inside st) : (p.advance st).Inside st := by
  rw [Page.advance]
  split
  · exact inside.nextLine
  · next short => exact ⟨inside.above, inside.below, Nat.lt_of_le_of_ne inside.column short⟩

theorem Inside.back (inside : p.Inside st) : (p.back st).Inside st := by
  have above := inside.above
  have below := inside.below
  have column := inside.column
  rw [Page.back]
  split
  · exact ⟨above, below, Nat.lt_of_le_of_lt (Nat.sub_le _ _) column⟩
  · split
    · next behind => exact ⟨Nat.le_sub_one_of_lt behind.2, by simp only; omega, by simp only; omega⟩
    · exact inside

end Inside

theorem Inside.type (inside : p.Inside st) (c : σ) : (p.type st c).Inside st := by
  rw [Page.type]
  split
  · exact inside.nextLine
  · split
    · exact inside.back.set _
    · exact (inside.set _).advance

/-! ## Two styles -/

/-- The page with other looks. -/
def map (f : α → β) (p : Page α) : Page β := { p with cell := fun y x => f (p.cell y x) }

/-- The styles have the same screen, and `f` takes the looks of one to those of the other. -/
structure SameText (f : α → β) (st : PageStyle σ α) (st' : PageStyle σ β) : Prop where
  width : st'.width = st.width
  height : st'.height = st.height
  newline : st'.newline = st.newline
  backspace : st'.backspace = st.backspace
  glyph : ∀ c, c ≠ st.newline → c ≠ st.backspace → st'.glyph c = f (st.glyph c)
  erased : st'.erased = f st.erased

section SameText

variable {f : α → β} {st' : PageStyle σ β}

omit [DecidableEq σ] in
theorem map_set (a : α) : (p.set a).map f = (p.map f).set (f a) := by
  simp only [map, set, apply_ite f]
  rfl

omit [DecidableEq σ] in
theorem SameText.map_nextLine (same : SameText f st st') : (p.nextLine st).map f = (p.map f).nextLine st' := by
  simp only [map, nextLine, same.height]

omit [DecidableEq σ] in
theorem SameText.map_advance (same : SameText f st st') : (p.advance st).map f = (p.map f).advance st' := by
  simp only [advance, same.width, ← same.map_nextLine, apply_ite (map f)]
  rfl

omit [DecidableEq σ] in
/-- The wrapping of a style matters at the left edge only. -/
theorem SameText.map_back (same : SameText f st st') (away : st'.wraps = st.wraps ∨ ¬p.AtEdge) :
    (p.back st).map f = (p.map f).back st' := by
  rw [back, back]
  rcases Nat.eq_zero_or_pos p.column with edge | behind
  · have first : ¬0 < p.column := by omega
    rw [if_neg first, if_neg (show ¬0 < (p.map f).column from first)]
    rcases away with wraps | away
    · rw [wraps, same.width, apply_ite (map f)]
      rfl
    · have stays : ¬p.top < p.line := fun below => away ⟨edge, below⟩
      rw [if_neg (fun wraps => stays wraps.2), if_neg (fun wraps => stays wraps.2)]
  · rw [if_pos behind, if_pos (show 0 < (p.map f).column from behind)]
    rfl

theorem SameText.map_type (same : SameText f st st') {c : σ}
    (away : st'.wraps = st.wraps ∨ ¬(c = st.backspace ∧ p.AtEdge)) :
    (p.type st c).map f = (p.map f).type st' c := by
  rw [type, type, same.newline, same.backspace]
  split
  · exact same.map_nextLine
  · next visible =>
    split
    · next erases =>
      rw [map_set, same.map_back (away.imp_right fun away edge => away ⟨erases, edge⟩), same.erased]
    · next plain => rw [same.map_advance, map_set, same.glyph c visible plain]

/-- A text without a backspace at the left edge looks the same in both styles. -/
theorem SameText.map_write (same : SameText f st st') {text : List σ}
    (away : st'.wraps = st.wraps ∨ ∀ done, done ++ [st.backspace] <+: text → ¬(p.write st done).AtEdge) :
    (p.write st text).map f = (p.map f).write st' text := by
  induction text generalizing p with
  | nil => rfl
  | cons c rest ih =>
    rw [write_cons, write_cons, ← same.map_type]
    · refine ih (away.imp_right fun away done before => ?_)
      exact away (c :: done) (List.cons_prefix_cons.mpr ⟨rfl, before⟩)
    · refine away.imp_right fun away edge => ?_
      exact away [] (List.cons_prefix_cons.mpr ⟨edge.1.symm, List.nil_prefix⟩) edge.2

end SameText

/-! ## Editing a line -/

/-- The cells counted line by line. -/
def nth (st : PageStyle σ α) (p : Page α) (n : ℕ) : α := p.cell (n / st.width) (n % st.width)

/-- Where the cursor is among them. -/
def position (st : PageStyle σ α) (p : Page α) : ℕ := p.line * st.width + p.column

section Positions

omit [DecidableEq σ]

theorem nth_set (inside : p.Inside st) (a : α) (n : ℕ) :
    (p.set a).nth st n = if n = p.position st then a else p.nth st n := by
  have column := inside.column
  have positive : 0 < st.width := by omega
  have place : (n / st.width = p.line ∧ n % st.width = p.column) ↔ n = p.position st := by
    rw [position]
    constructor
    · rintro ⟨line, rest⟩
      rw [← line, ← rest, Nat.div_add_mod']
    · rintro rfl
      rw [Nat.mul_comm, Nat.mul_add_div positive, Nat.mul_add_mod, Nat.div_eq_of_lt column, Nat.mod_eq_of_lt column]
      exact ⟨rfl, rfl⟩
  exact if_congr place rfl rfl

/-- The next cell, and the window when it has moved. -/
theorem advance_position (inside : p.Inside st) :
    (p.advance st).position st = p.position st + 1 ∧
      ((p.advance st).top = p.top ∨
        ((p.advance st).top + st.height) * st.width = p.position st + 1 + st.width) := by
  have below := inside.below
  rw [advance]
  split
  · next full =>
    have next : (p.line + 1) * st.width = p.position st + 1 := by
      rw [position, Nat.succ_mul, Nat.add_assoc, full]
    refine ⟨next, ?_⟩
    rw [nextLine]
    split
    · next scrolls =>
      right
      rw [show p.top + 1 + st.height = p.line + 1 + 1 by omega, Nat.succ_mul, next]
    · exact Or.inl rfl
  · exact ⟨rfl, Or.inl rfl⟩

theorem nth_advance (n : ℕ) : (p.advance st).nth st n = p.nth st n := by
  rw [advance]
  split <;> rfl

/-- The cell before, in a style that wraps. -/
theorem back_position (wraps : st.wraps = true) (inside : p.Inside st) (behind : p.top * st.width < p.position st) :
    (p.back st).position st + 1 = p.position st ∧ (p.back st).top = p.top ∧ ∀ n, (p.back st).nth st n = p.nth st n := by
  have column := inside.column
  rw [back]
  split
  · next further =>
    refine ⟨?_, rfl, fun n => rfl⟩
    simp only [position]
    omega
  · next edge =>
    have start : p.column = 0 := by omega
    rw [position, start] at behind
    have below : p.top < p.line := Nat.lt_of_mul_lt_mul_right (by omega : p.top * st.width < p.line * st.width)
    rw [if_pos ⟨wraps, below⟩]
    refine ⟨?_, rfl, fun n => rfl⟩
    obtain ⟨line, last⟩ := Nat.exists_eq_add_one_of_ne_zero (Nat.ne_zero_of_lt below)
    simp only [position, start, last, Nat.add_sub_cancel, Nat.succ_mul]
    omega

theorem nth_back (n : ℕ) : (p.back st).nth st n = p.nth st n := by
  rw [back]
  split
  · rfl
  · split <;> rfl

/-- It goes back by one cell at most. -/
theorem position_le_back (positive : 0 < st.width) : p.position st ≤ (p.back st).position st + 1 := by
  rw [back]
  split
  · simp only [position]
    omega
  · next edge =>
    split
    · next behind =>
      obtain ⟨line, last⟩ := Nat.exists_eq_add_one_of_ne_zero (Nat.ne_zero_of_lt behind.2)
      simp only [position, last, Nat.add_sub_cancel, Nat.succ_mul]
      omega
    · exact Nat.le_succ _

end Positions

/-- Nothing stands at the cursor and behind it. -/
def Fresh (st : PageStyle σ α) (p : Page α) : Prop := ∀ n, p.position st ≤ n → p.nth st n = st.erased

theorem Fresh.type (fresh : p.Fresh st) (inside : p.Inside st) (c : σ) : (p.type st c).Fresh st := by
  have column := inside.column
  rw [Page.type]
  split
  · intro n behind
    have further : p.position st ≤ (p.nextLine st).position st := by
      simp only [position, nextLine, Nat.succ_mul]
      omega
    exact fresh n (Nat.le_trans further behind)
  · split
    · intro n behind
      have near := position_le_back (p := p) (Nat.zero_lt_of_lt column)
      have same : ((p.back st).set st.erased).position st = (p.back st).position st := rfl
      rw [nth_set inside.back, nth_back]
      split
      · rfl
      · exact fresh n (by omega)
    · intro n behind
      rw [(advance_position (inside.set (st.glyph c))).1] at behind
      have same : (p.set (st.glyph c)).position st = p.position st := rfl
      rw [nth_advance, nth_set inside, if_neg (by omega)]
      exact fresh n (by omega)

theorem Fresh.write (fresh : p.Fresh st) (inside : p.Inside st) (text : List σ) : (p.write st text).Fresh st := by
  induction text generalizing p with
  | nil => exact fresh
  | cons c rest ih => exact ih (fresh.type inside c) (inside.type c)

/-- A text of at most `limit` symbols stands on the page from the cursor of `base` on, with the cursor behind it.
When the window has moved, it was for a text of this length. -/
structure Typed (st : PageStyle σ α) (base : Page α) (limit : ℕ) (text : List σ) (p : Page α) : Prop where
  inside : p.Inside st
  place : p.position st = base.position st + text.length
  room : text.length ≤ limit
  window : p.top = base.top ∨ (p.top + st.height) * st.width ≤ base.position st + limit + st.width
  shown : ∀ i (_ : i < text.length), p.nth st (base.position st + i) = st.glyph text[i]
  others : ∀ n, n < base.position st ∨ base.position st + text.length ≤ n → p.nth st n = base.nth st n

section Typed

variable {base : Page α} {limit : ℕ} {text : List σ}

omit [DecidableEq σ] in
theorem Typed.start (inside : base.Inside st) (limit : ℕ) : Typed st base limit [] base where
  inside := inside
  place := rfl
  room := Nat.zero_le _
  window := Or.inl rfl
  shown _ none := absurd none (Nat.not_lt_zero _)
  others _ _ := rfl

omit [DecidableEq σ] in
/-- The text is reachable as long as it fits the screen with a line to spare. -/
theorem Typed.reachable (typed : Typed st base limit text p) (inside : base.Inside st)
    (fits : limit + st.width ≤ st.height * st.width) : p.top * st.width ≤ base.position st := by
  rcases typed.window with same | moved
  · rw [same]
    have above : base.top * st.width ≤ base.line * st.width := Nat.mul_le_mul_right _ inside.above
    rw [position]
    omega
  · rw [Nat.add_mul] at moved
    omega

/-- A symbol typed behind the text. -/
theorem Typed.put (typed : Typed st base limit text p) {c : σ} (visible : c ≠ st.newline) (other : c ≠ st.backspace)
    (room : text.length < limit) : Typed st base limit (text ++ [c]) (p.type st c) := by
  have place := typed.place
  obtain ⟨next, window⟩ := advance_position (typed.inside.set (st.glyph c))
  have stays : (p.set (st.glyph c)).position st = p.position st := rfl
  have cells : ∀ n, (p.type st c).nth st n = if n = p.position st then st.glyph c else p.nth st n := by
    intro n
    rw [type, if_neg visible, if_neg other, nth_advance, nth_set typed.inside]
  rw [type, if_neg visible, if_neg other] at cells ⊢
  refine ⟨(typed.inside.set _).advance, ?_, ?_, ?_, ?_, ?_⟩
  · rw [next, stays, place, List.length_append, List.length_singleton, Nat.add_assoc]
  · rw [List.length_append, List.length_singleton]
    exact room
  · rcases window with same | moved
    · rw [same]
      exact typed.window
    · right
      rw [moved, stays, place]
      omega
  · intro i inside
    rw [List.length_append, List.length_singleton] at inside
    rw [cells, place]
    rcases Nat.lt_or_ge i text.length with earlier | last
    · rw [if_neg (by omega), List.getElem_append_left earlier]
      exact typed.shown i earlier
    · obtain rfl : i = text.length := by omega
      rw [if_pos rfl, List.getElem_concat_length rfl]
  · intro n outside
    rw [List.length_append, List.length_singleton] at outside
    rw [cells, if_neg (by omega)]
    exact typed.others n (by omega)

omit [DecidableEq σ] in
/-- The last symbol taken back. -/
theorem Typed.erase (typed : Typed st base limit text p) (inside : base.Inside st) (wraps : st.wraps = true)
    (fresh : base.Fresh st) (fits : limit + st.width ≤ st.height * st.width)
    (nonempty : text ≠ []) : Typed st base limit text.dropLast ((p.back st).set st.erased) := by
  have place := typed.place
  have room := typed.room
  have positive : 0 < text.length := List.length_pos_iff.mpr nonempty
  have reachable := typed.reachable inside fits
  obtain ⟨before, window, cells⟩ := back_position wraps typed.inside (by omega)
  have erased : ∀ n, ((p.back st).set st.erased).nth st n =
      if n = (p.back st).position st then st.erased else p.nth st n := by
    intro n
    rw [nth_set typed.inside.back, cells]
  refine ⟨typed.inside.back.set _, ?_, ?_, ?_, ?_, ?_⟩
  · rw [List.length_dropLast]
    change (p.back st).position st = _
    omega
  · rw [List.length_dropLast]
    omega
  · change (p.back st).top = base.top ∨ ((p.back st).top + st.height) * st.width ≤ _
    rw [window]
    exact typed.window
  · intro i shorter
    rw [List.length_dropLast] at shorter
    rw [erased, if_neg (by omega), List.getElem_dropLast]
    exact typed.shown i (by omega)
  · intro n outside
    rw [List.length_dropLast] at outside
    rw [erased]
    split
    · exact (fresh n (by omega)).symm
    · exact typed.others n (by omega)

/-- Back, a blank over the last symbol, and back again: the last symbol is gone. -/
theorem Typed.rubout (typed : Typed st base limit text p) (inside : base.Inside st) (wraps : st.wraps = true)
    (fresh : base.Fresh st) (fits : limit + st.width ≤ st.height * st.width)
    (nonempty : text ≠ []) {blank : σ} (visible : blank ≠ st.newline) (other : blank ≠ st.backspace)
    (distinct : st.backspace ≠ st.newline) :
    Typed st base limit text.dropLast (p.write st [st.backspace, blank, st.backspace]) := by
  have room := typed.room
  have positive : 0 < text.length := List.length_pos_iff.mpr nonempty
  have backs : ∀ q : Page α, q.type st st.backspace = (q.back st).set st.erased := by
    intro q
    rw [type, if_neg distinct, if_pos rfl]
  have once := typed.erase inside wraps fresh fits nonempty
  have blanked := once.put visible other (by rw [List.length_dropLast]; omega)
  have twice := blanked.erase inside wraps fresh fits (List.append_ne_nil_of_right_ne_nil _ (List.cons_ne_nil _ _))
  rw [List.dropLast_concat] at twice
  rw [write_cons, write_cons, write_cons, write_nil, backs, backs]
  exact twice

end Typed

end Page

end RaryOS.Core
