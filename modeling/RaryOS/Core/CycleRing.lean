import Mathlib.Data.Nat.ModEq
import Mathlib.Logic.Function.Basic
import Mathlib.Tactic.Common

/-! # Rings whose slots carry the mark of their lap

Items are counted from the start: item `k` goes to slot `k % N`, and its mark is that of its lap,
which alternates. Nothing but the marks tells a consumer which slots hold items it has not seen.
`CycleRing` says what the slots hold after some items were published and a further one was reserved,
whose slot may be half-written; `CycleRing.ready_iff` is what a consumer may conclude from a mark.
-/

namespace RaryOS.Core

variable {α : Type*}

/-- The mark of the lap of item `k`: one in the first lap. -/
def cycleOf (N k : ℕ) : ℕ := (k / N + 1) % 2

theorem cycleOf_of_lt {N k : ℕ} (first : k < N) : cycleOf N k = 1 := by
  rw [cycleOf, Nat.div_eq_of_lt first]

theorem cycleOf_add {N : ℕ} (k : ℕ) (positive : 0 < N) : cycleOf N (k + N) = 1 - cycleOf N k := by
  rw [cycleOf, cycleOf, Nat.add_div_right k positive]
  omega

theorem cycleOf_le (N k : ℕ) : cycleOf N k ≤ 1 := by
  rw [cycleOf]
  omega

/-- Items less than a lap apart have different slots. -/
theorem slot_ne {N k l : ℕ} (earlier : k < l) (near : l < k + N) : k % N ≠ l % N := by
  intro same
  have multiple := (Nat.modEq_iff_dvd' earlier.le).mp same
  have := Nat.le_of_dvd (by omega) multiple
  omega

/-- An index that wraps around, with the mark of its lap: it stands for item `count`. At the end of a
lap the index may be `N` still. -/
def Cursor (N idx cycle count : ℕ) : Prop :=
  ∃ lap, count = N * lap + idx ∧ idx ≤ N ∧ cycle = (lap + 1) % 2

namespace Cursor

variable {N idx cycle count : ℕ}

theorem start (N : ℕ) : Cursor N 0 1 0 := ⟨0, rfl, Nat.zero_le N, rfl⟩

/-- Inside a lap the index is the slot of the item and the mark is its mark. -/
theorem slot (cursor : Cursor N idx cycle count) (inside : idx < N) :
    count % N = idx ∧ cycleOf N count = cycle := by
  obtain ⟨lap, rfl, _, rfl⟩ := cursor
  constructor
  · rw [Nat.mul_add_mod, Nat.mod_eq_of_lt inside]
  · rw [cycleOf, Nat.mul_add_div (by omega), Nat.div_eq_of_lt inside, Nat.add_zero]

theorem next (cursor : Cursor N idx cycle count) (inside : idx < N) :
    Cursor N (idx + 1) cycle (count + 1) := by
  obtain ⟨lap, rfl, _, rfl⟩ := cursor
  exact ⟨lap, by omega, inside, rfl⟩

/-- At the end of a lap the index starts over, with the other mark. -/
theorem wrap (cursor : Cursor N N cycle count) : Cursor N 0 (1 - cycle) count := by
  obtain ⟨lap, rfl, _, rfl⟩ := cursor
  exact ⟨lap + 1, by rw [Nat.mul_succ, Nat.add_zero], Nat.zero_le N, by omega⟩

end Cursor

/-- The slots of a ring after `items` were published. The slot of the next item may be written to once
`reserved` counts it; until it is published its mark stays that of the lap before. -/
structure CycleRing (N : ℕ) (mark : α → ℕ) (slots : ℕ → α) (items : List α) (reserved : ℕ) : Prop where
  marked : ∀ k (bound : k < items.length), mark items[k] = cycleOf N k
  stored : ∀ k (bound : k < items.length), reserved ≤ k + N → slots (k % N) = items[k]
  old : mark (slots (items.length % N)) ≠ cycleOf N items.length
  blank : ∀ s < N, items.length ≤ s → mark (slots s) = 0

namespace CycleRing

variable {N reserved : ℕ} {mark : α → ℕ} {slots : ℕ → α} {items : List α}

theorem empty (positive : 0 < N) (clear : ∀ s < N, mark (slots s) = 0) :
    CycleRing N mark slots [] 0 where
  marked _ bound := absurd bound (Nat.not_lt_zero _)
  stored _ bound := absurd bound (Nat.not_lt_zero _)
  old := by
    rw [List.length_nil, Nat.zero_mod, clear 0 positive, cycleOf_of_lt positive]
    decide
  blank s bound _ := clear s bound

theorem reserve (ring : CycleRing N mark slots items reserved) {more : ℕ} (le : reserved ≤ more) :
    CycleRing N mark slots items more :=
  ⟨ring.marked, fun k bound window => ring.stored k bound (le.trans window), ring.old, ring.blank⟩

/-- Only the slots of the ring matter. -/
theorem congr (ring : CycleRing N mark slots items reserved) (positive : 0 < N) {slots' : ℕ → α}
    (same : ∀ s < N, slots' s = slots s) : CycleRing N mark slots' items reserved where
  marked := ring.marked
  stored k bound window := by
    rw [same _ (Nat.mod_lt k positive)]
    exact ring.stored k bound window
  old := by
    rw [same _ (Nat.mod_lt _ positive)]
    exact ring.old
  blank s bound high := by
    rw [same s bound]
    exact ring.blank s bound high

/-- What a consumer of item `c` learns from the mark of its slot: it matches exactly when the item is
published, and then the slot holds the item. -/
theorem ready_iff (ring : CycleRing N mark slots items reserved) {c : ℕ} (le : c ≤ items.length)
    (window : reserved ≤ c + N) : mark (slots (c % N)) = cycleOf N c ↔ c < items.length := by
  constructor
  · intro ready
    apply lt_of_le_of_ne le
    rintro rfl
    exact ring.old ready
  · intro bound
    rw [ring.stored c bound window, ring.marked c bound]

/-- Writing to the reserved slot without touching its mark. -/
theorem scribble (ring : CycleRing N mark slots items (items.length + 1)) {a : α}
    (keeps : mark a = mark (slots (items.length % N))) :
    CycleRing N mark (Function.update slots (items.length % N) a) items (items.length + 1) where
  marked := ring.marked
  stored k bound window := by
    rw [Function.update_of_ne (slot_ne bound (by omega))]
    exact ring.stored k bound window
  old := by
    rw [Function.update_self, keeps]
    exact ring.old
  blank s bound high := by
    by_cases here : s = items.length % N
    · rw [here, Function.update_self, keeps, ← here]
      exact ring.blank s bound high
    · rw [Function.update_of_ne here]
      exact ring.blank s bound high

/-- Writing the reserved item with the mark of its lap publishes it. -/
theorem publish (ring : CycleRing N mark slots items (items.length + 1)) (positive : 0 < N) {a : α}
    (marks : mark a = cycleOf N items.length) :
    CycleRing N mark (Function.update slots (items.length % N) a) (items ++ [a])
      (items.length + 1) := by
  have marked : ∀ k (bound : k < (items ++ [a]).length), mark (items ++ [a])[k] = cycleOf N k := by
    intro k bound
    rw [List.length_append, List.length_singleton] at bound
    rcases Nat.lt_succ_iff_lt_or_eq.mp bound with earlier | rfl
    · rw [List.getElem_append_left earlier]
      exact ring.marked k earlier
    · rw [List.getElem_concat_length rfl]
      exact marks
  have stored : ∀ k (bound : k < (items ++ [a]).length), items.length + 1 ≤ k + N →
      Function.update slots (items.length % N) a (k % N) = (items ++ [a])[k] := by
    intro k bound window
    rw [List.length_append, List.length_singleton] at bound
    rcases Nat.lt_succ_iff_lt_or_eq.mp bound with earlier | rfl
    · rw [List.getElem_append_left earlier, Function.update_of_ne (slot_ne earlier (by omega))]
      exact ring.stored k earlier window
    · rw [List.getElem_concat_length rfl, Function.update_self]
  have length : (items ++ [a]).length = items.length + 1 := by
    rw [List.length_append, List.length_singleton]
  refine ⟨marked, stored, ?_, fun s bound high => ?_⟩
  · rw [length]
    rcases Nat.lt_or_ge (items.length + 1) N with first | later
    · -- the first lap: the next slot has never been written
      rw [Nat.mod_eq_of_lt first, Nat.mod_eq_of_lt (by omega),
        Function.update_of_ne (by omega : items.length + 1 ≠ items.length),
        ring.blank _ first (Nat.le_succ _), cycleOf_of_lt first]
      decide
    · -- the next slot holds the item one lap before
      obtain ⟨k, lap⟩ : ∃ k, items.length + 1 = k + N := ⟨items.length + 1 - N, by omega⟩
      have bound : k < (items ++ [a]).length := by omega
      have here : (items.length + 1) % N = k % N := by rw [lap, Nat.add_mod_right]
      rw [here, stored k bound (by omega), marked k bound, lap, cycleOf_add k positive]
      have := cycleOf_le N k
      omega
  · rw [length] at high
    have here : items.length % N = items.length := Nat.mod_eq_of_lt (by omega)
    rw [here, Function.update_of_ne (by omega)]
    exact ring.blank s bound (by omega)

end CycleRing

end RaryOS.Core
