import Mathlib.Data.List.Basic
import Mathlib.Data.List.TakeWhile

/-! # Words of a list

A word is a run of elements without separators that is as long as possible: it begins where an element that is no
separator stands at the start of the list or behind a separator, and it goes on to the next separator or the end.
`words` lists the words with the places where they begin. The laws give the words of a list from its first element
or its first word.
-/

namespace RaryOS.Core

variable {α : Type*} (blank : α → Bool)

/-- A word begins at `k`. -/
def startsWord (text : List α) (k : ℕ) : Bool :=
  text[k]?.any (fun c => !blank c) && (k == 0 || text[k - 1]?.any blank)

/-- The run from `k` to the next separator or the end. -/
def wordAt (line : List α) (k : ℕ) : List α := (line.drop k).takeWhile fun c => !blank c

/-- The words, and where they begin. -/
def words (line : List α) : List (ℕ × List α) :=
  ((List.range line.length).filter (startsWord blank line)).map fun k => (k, wordAt blank line k)

/-- The same words, further on. -/
def shiftWords (d : ℕ) (ws : List (ℕ × List α)) : List (ℕ × List α) := ws.map fun w => (d + w.1, w.2)

theorem shiftWords_shiftWords (d e : ℕ) (ws : List (ℕ × List α)) :
    shiftWords d (shiftWords e ws) = shiftWords (d + e) ws := by
  rw [shiftWords, shiftWords, shiftWords, List.map_map]
  apply List.map_congr_left
  intro w _
  dsimp only [Function.comp_apply]
  rw [Nat.add_assoc]

theorem length_shiftWords (d : ℕ) (ws : List (ℕ × List α)) : (shiftWords d ws).length = ws.length :=
  List.length_map _

variable {blank}

theorem words_nil : words blank [] = [] := rfl

section Laws

variable {first rest word : List α} {c : α}

/-- The words of a list that has a separator at the end of its first part. -/
theorem words_append (ended : first.getLast?.any blank = true) :
    words blank (first ++ rest) =
      ((List.range first.length).filter (startsWord blank (first ++ rest))).map
        (fun k => (k, wordAt blank (first ++ rest) k)) ++ shiftWords first.length (words blank rest) := by
  have nonempty : 0 < first.length := by
    apply List.length_pos_of_ne_nil
    rintro rfl
    cases ended
  have starts : ∀ k, startsWord blank (first ++ rest) (first.length + k) = startsWord blank rest k := by
    intro k
    rw [startsWord, startsWord, List.getElem?_append_right (Nat.le_add_right _ _), Nat.add_sub_cancel_left]
    congr 1
    rcases Nat.eq_zero_or_pos k with rfl | positive
    · rw [Nat.add_zero, List.getElem?_append_left (by omega), ← List.getLast?_eq_getElem?, ended]
      simp
    · rw [List.getElem?_append_right (by omega), show first.length + k - 1 - first.length = k - 1 by omega,
        beq_eq_false_iff_ne.mpr (show first.length + k ≠ 0 by omega),
        beq_eq_false_iff_ne.mpr (show k ≠ 0 by omega)]
  have runs : ∀ k, wordAt blank (first ++ rest) (first.length + k) = wordAt blank rest k := by
    intro k
    rw [wordAt, wordAt, List.drop_append, List.drop_eq_nil_of_le (Nat.le_add_right _ _), List.nil_append,
      Nat.add_sub_cancel_left]
  rw [words, List.length_append, List.range_add, List.filter_append, List.map_append, words, shiftWords, List.map_map,
    List.filter_map, List.map_map]
  congr 1
  have same : (startsWord blank (first ++ rest) ∘ fun k => first.length + k) = startsWord blank rest := funext starts
  rw [same]
  apply List.map_congr_left
  intro k _
  dsimp only [Function.comp_apply]
  rw [runs]

/-- A separator in front. -/
theorem words_cons_blank (separates : blank c = true) :
    words blank (c :: rest) = shiftWords 1 (words blank rest) := by
  have ended : [c].getLast?.any blank = true := separates
  rw [← List.singleton_append, words_append ended]
  have none : startsWord blank (c :: rest) 0 = false := by
    simp [startsWord, separates]
  simp [none]

theorem filter_range_zero {p : ℕ → Bool} {n : ℕ} (positive : 0 < n) (zero : p 0 = true)
    (others : ∀ k, 0 < k → k < n → p k = false) : (List.range n).filter p = [0] := by
  obtain ⟨n, rfl⟩ := Nat.exists_eq_add_one_of_ne_zero (Nat.ne_of_gt positive)
  rw [List.range_succ_eq_map, List.filter_cons, if_pos zero, List.cons_inj_right, List.filter_eq_nil_iff]
  rintro _ member
  obtain ⟨k, inside, rfl⟩ := List.mem_map.mp member
  rw [others (k + 1) (Nat.succ_pos k) (Nat.succ_lt_succ (List.mem_range.mp inside))]
  exact Bool.false_ne_true

/-- A word begins at its first place. -/
theorem startsWord_zero (nonempty : word ≠ []) (solid : ∀ c ∈ word, blank c = false) :
    startsWord blank (word ++ rest) 0 = true := by
  obtain ⟨d, others, rfl⟩ := List.exists_cons_of_ne_nil nonempty
  have first : blank d = false := solid d (List.mem_cons_self ..)
  simp [startsWord, first]

/-- Nothing begins inside a word. -/
theorem startsWord_inside (solid : ∀ c ∈ word, blank c = false) {k : ℕ} (positive : 0 < k) (inside : k < word.length) :
    startsWord blank (word ++ rest) k = false := by
  have before : blank (word[k - 1]) = false := solid _ (List.getElem_mem _)
  rw [startsWord, List.getElem?_append_left (show k - 1 < word.length by omega),
    List.getElem?_eq_getElem (l := word) (by omega), Option.any_some, before,
    beq_eq_false_iff_ne.mpr (Nat.ne_of_gt positive), Bool.or_self, Bool.and_false]

/-- One word and nothing else. -/
theorem words_word (nonempty : word ≠ []) (solid : ∀ c ∈ word, blank c = false) : words blank word = [(0, word)] := by
  have starts : startsWord blank (word ++ []) 0 = true := startsWord_zero nonempty solid
  have inside : ∀ k, 0 < k → k < word.length → startsWord blank (word ++ []) k = false :=
    fun _ => startsWord_inside solid
  rw [List.append_nil] at starts inside
  rw [words, filter_range_zero (List.length_pos_of_ne_nil nonempty) starts inside, List.map_singleton, wordAt,
    List.drop_zero, List.takeWhile_eq_self_iff.mpr]
  intro c member
  rw [solid c member]
  rfl

/-- A word up to the first separator. -/
theorem words_word_cons (nonempty : word ≠ []) (solid : ∀ c ∈ word, blank c = false) (separates : blank c = true) :
    words blank (word ++ c :: rest) = (0, word) :: shiftWords (word.length + 1) (words blank rest) := by
  have ended : (word ++ [c]).getLast?.any blank = true := by
    rw [List.getLast?_concat]
    exact separates
  have parts : words blank (word ++ [c] ++ rest) = _ := words_append ended
  rw [List.append_assoc, List.singleton_append, List.length_append, List.length_singleton] at parts
  rw [parts, filter_range_zero (Nat.succ_pos _) (startsWord_zero nonempty solid), List.map_singleton,
    List.singleton_append, wordAt, List.drop_zero, List.takeWhile_append_of_pos, List.takeWhile_cons_of_neg,
    List.append_nil]
  · rw [separates]
    exact Bool.false_ne_true
  · intro d member
    rw [solid d member]
    rfl
  · intro k positive bound
    rcases Nat.lt_succ_iff_lt_or_eq.mp bound with inside | rfl
    · exact startsWord_inside solid positive inside
    · rw [startsWord, List.getElem?_append_right (Nat.le_refl _), Nat.sub_self, List.getElem?_cons_zero,
        Option.any_some, separates]
      rfl

/-- Separators in front. -/
theorem words_blanks {front : List α} (separate : ∀ c ∈ front, blank c = true) :
    words blank (front ++ rest) = shiftWords front.length (words blank rest) := by
  induction front with
  | nil =>
    have same : (fun w : ℕ × List α => (0 + w.1, w.2)) = id := by
      funext w
      rw [Nat.zero_add]
      rfl
    rw [List.nil_append, shiftWords, List.length_nil, same, List.map_id]
  | cons c front ih =>
    rw [List.forall_mem_cons] at separate
    rw [List.cons_append, words_cons_blank separate.1, ih separate.2, shiftWords_shiftWords, List.length_cons,
      Nat.add_comm]

/-- Where a drop stops, the test fails. -/
theorem stops_at {p : α → Bool} {line tail : List α} (stopped : line.dropWhile p = c :: tail) : p c = false := by
  have head := List.head_dropWhile_not p (l := line) (by rw [stopped]; exact List.cons_ne_nil _ _)
  simp only [stopped, List.head_cons] at head
  exact head

/-- Separators, the first word if there is one, and a separator or the end. -/
theorem exists_first_word (blank : α → Bool) (line : List α) :
    ∃ front word rest, line = front ++ (word ++ rest) ∧ (∀ c ∈ front, blank c = true) ∧
      (∀ c ∈ word, blank c = false) ∧ (word = [] → rest = []) ∧
        (rest = [] ∨ ∃ c tail, blank c = true ∧ rest = c :: tail) := by
  refine ⟨line.takeWhile blank, (line.dropWhile blank).takeWhile fun c => !blank c,
    (line.dropWhile blank).dropWhile fun c => !blank c, ?_, ?_, ?_, ?_, ?_⟩
  · rw [List.takeWhile_append_dropWhile, List.takeWhile_append_dropWhile]
  · intro c member
    exact List.mem_takeWhile_imp member
  · intro c member
    have solid := List.mem_takeWhile_imp member
    rwa [Bool.not_eq_true'] at solid
  · cases stopped : line.dropWhile blank with
    | nil => exact fun _ => rfl
    | cons c tail =>
      intro none
      rw [List.takeWhile_cons_of_pos (by rw [stops_at stopped]; rfl)] at none
      cases none
  · cases stopped : (line.dropWhile blank).dropWhile fun c => !blank c with
    | nil => exact Or.inl rfl
    | cons c tail =>
      have separates := stops_at stopped
      rw [Bool.not_eq_false'] at separates
      exact Or.inr ⟨c, tail, separates, rfl⟩

end Laws

end RaryOS.Core
