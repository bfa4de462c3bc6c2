import Mathlib.Data.List.Basic
import Mathlib.Tactic.Common

/-! # Wrapped text and its last lines

`wrap` breaks a text after every break symbol, which takes no cell itself, and after every `width`
symbols of a line. A screen shows the last lines of a text; `cellAt` is what it shows in a cell, with a
blank wherever no line reaches.
-/

namespace RaryOS.Core

variable {α : Type*}

section Wrap

variable [DecidableEq α]

/-- The lines of a text whose first line has begun with `line`. -/
def wrap (width : ℕ) (newline : α) (line : List α) : List α → List (List α)
  | [] => [line]
  | c :: rest =>
    if c = newline then line :: wrap width newline [] rest
    else if line.length + 1 = width then (line ++ [c]) :: wrap width newline [] rest
    else wrap width newline (line ++ [c]) rest

/-- No line is longer than the width. -/
theorem wrap_length_le {width : ℕ} {newline : α} {line : List α} (room : line.length < width)
    (text : List α) : ∀ l ∈ wrap width newline line text, l.length ≤ width := by
  induction text generalizing line with
  | nil =>
    intro l member
    rw [wrap, List.mem_singleton] at member
    exact member ▸ Nat.le_of_lt room
  | cons c rest ih =>
    have positive : ([] : List α).length < width := Nat.lt_of_le_of_lt (Nat.zero_le _) room
    intro l member
    rw [wrap] at member
    split at member
    · rcases List.mem_cons.mp member with rfl | later
      · exact Nat.le_of_lt room
      · exact ih positive l later
    · split at member
      · next full =>
        rcases List.mem_cons.mp member with rfl | later
        · apply Nat.le_of_eq
          rw [List.length_append, List.length_singleton, full]
        · exact ih positive l later
      · next short =>
        refine ih ?_ l member
        rw [List.length_append, List.length_singleton]
        omega

end Wrap

/-- The last `n` lines, or all when there are fewer. -/
def lastLines (n : ℕ) (lines : List α) : List α := lines.drop (lines.length - n)

theorem lastLines_length (n : ℕ) (lines : List α) : (lastLines n lines).length = min n lines.length := by
  rw [lastLines, List.length_drop]
  omega

theorem lastLines_concat (n : ℕ) (lines : List α) (line : α) :
    lastLines (n + 1) (lines ++ [line]) = lastLines n lines ++ [line] := by
  rw [lastLines, lastLines, List.length_append, List.length_singleton,
    List.drop_append_of_le_length (by omega), show lines.length + 1 - (n + 1) = lines.length - n by omega]

/-- While there is room, no line leaves the screen. -/
theorem lastLines_concat_of_lt {n : ℕ} {lines : List α} (room : lines.length < n) (line : α) :
    lastLines n (lines ++ [line]) = lastLines n lines ++ [line] := by
  rw [lastLines, lastLines, List.length_append, List.length_singleton, show lines.length + 1 - n = 0 by omega,
    show lines.length - n = 0 by omega, List.drop_zero, List.drop_zero]

/-- On a full screen the first of the lines leaves it. -/
theorem lastLines_concat_of_le {n : ℕ} {lines : List α} (positive : 0 < n) (full : n ≤ lines.length)
    (line : α) : lastLines n (lines ++ [line]) = (lastLines n lines).tail ++ [line] := by
  rw [lastLines, lastLines, List.length_append, List.length_singleton,
    List.drop_append_of_le_length (by omega), List.tail_drop,
    show lines.length - n + 1 = lines.length + 1 - n by omega]

section Cells

variable (blank : α)

/-- What a screen shows in row `y` and column `x`. -/
def cellAt (lines : List (List α)) (y x : ℕ) : α := (lines[y]?.bind (·[x]?)).getD blank

theorem cellAt_of_le {lines : List (List α)} {y : ℕ} (below : lines.length ≤ y) (x : ℕ) :
    cellAt blank lines y x = blank := by
  rw [cellAt, List.getElem?_eq_none below, Option.bind_none, Option.getD_none]

theorem cellAt_append_of_lt {above : List (List α)} {y : ℕ} (inside : y < above.length)
    (below : List (List α)) (x : ℕ) : cellAt blank (above ++ below) y x = cellAt blank above y x := by
  rw [cellAt, cellAt, List.getElem?_append_left inside]

theorem cellAt_concat_last (above : List (List α)) (last : List α) (x : ℕ) :
    cellAt blank (above ++ [last]) above.length x = last[x]?.getD blank := by
  rw [cellAt, List.getElem?_concat_length, Option.bind_some]

/-- An empty line looks like no line. -/
theorem cellAt_concat_nil (lines : List (List α)) (y x : ℕ) :
    cellAt blank (lines ++ [[]]) y x = cellAt blank lines y x := by
  rcases Nat.lt_trichotomy y lines.length with above | rfl | below
  · exact cellAt_append_of_lt blank above _ x
  · rw [cellAt_concat_last, cellAt_of_le blank (Nat.le_refl _), List.getElem?_nil, Option.getD_none]
  · rw [cellAt_of_le blank (by rw [List.length_append, List.length_singleton]; omega),
      cellAt_of_le blank (Nat.le_of_lt below)]

theorem cellAt_tail (lines : List (List α)) (y x : ℕ) :
    cellAt blank lines.tail y x = cellAt blank lines (y + 1) x := by
  rw [cellAt, cellAt, List.getElem?_tail]

/-- A symbol appended to the last line changes the cell behind the line and no other. -/
theorem cellAt_concat_push (above : List (List α)) (line : List α) (c : α) (y x : ℕ) :
    cellAt blank (above ++ [line ++ [c]]) y x =
      if y = above.length ∧ x = line.length then c else cellAt blank (above ++ [line]) y x := by
  rcases Nat.lt_trichotomy y above.length with earlier | rfl | below
  · rw [if_neg (by omega), cellAt_append_of_lt blank earlier, cellAt_append_of_lt blank earlier]
  · rw [cellAt_concat_last, cellAt_concat_last]
    rcases Nat.lt_trichotomy x line.length with inside | rfl | behind
    · rw [if_neg (by omega), List.getElem?_append_left inside]
    · rw [if_pos ⟨rfl, rfl⟩, List.getElem?_concat_length, Option.getD_some]
    · rw [if_neg (by omega), List.getElem?_eq_none (Nat.le_of_lt behind),
        List.getElem?_eq_none (by rw [List.length_append, List.length_singleton]; omega)]
  · have length (l : List α) : (above ++ [l]).length ≤ y := by
      rw [List.length_append, List.length_singleton]
      exact below
    rw [if_neg (by omega), cellAt_of_le blank (length _), cellAt_of_le blank (length _)]

end Cells

end RaryOS.Core
