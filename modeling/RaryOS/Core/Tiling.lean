import Mathlib.Data.List.Pairwise
import Mathlib.Tactic.Common

/-! # Lists of intervals that tile a range

`Tiles low high a items b` says that the half-open intervals of `items` follow each other without gap
from `a` to `b`. Tiles compose and split at list appends, so an edit in the middle of a list is
checked locally; consecutive tiles are disjoint, and they lie between the ends of the range.
-/

namespace RaryOS.Core

variable {ι : Type*} {low high : ι → ℕ}

/-- The intervals `[low x, high x)` of the list follow each other from `a` to `b`. -/
def Tiles (low high : ι → ℕ) : ℕ → List ι → ℕ → Prop
  | a, [], b => a = b
  | a, x :: rest, b => low x = a ∧ low x ≤ high x ∧ Tiles low high (high x) rest b

namespace Tiles

theorem le {a b : ℕ} {items : List ι} (tiles : Tiles low high a items b) : a ≤ b := by
  induction items generalizing a with
  | nil => exact Nat.le_of_eq tiles
  | cons x rest ih =>
    obtain ⟨start, ordered, tail⟩ := tiles
    exact start ▸ Nat.le_trans ordered (ih tail)

theorem append_iff {a b : ℕ} {first second : List ι} :
    Tiles low high a (first ++ second) b ↔
      ∃ mid, Tiles low high a first mid ∧ Tiles low high mid second b := by
  induction first generalizing a with
  | nil =>
    constructor
    · exact fun tiles => ⟨a, rfl, tiles⟩
    · rintro ⟨mid, rfl, tiles⟩
      exact tiles
  | cons x rest ih =>
    constructor
    · rintro ⟨start, ordered, tail⟩
      obtain ⟨mid, left, right⟩ := ih.mp tail
      exact ⟨mid, ⟨start, ordered, left⟩, right⟩
    · rintro ⟨mid, ⟨start, ordered, left⟩, right⟩
      exact ⟨start, ordered, ih.mpr ⟨mid, left, right⟩⟩

/-- A tile lies inside the range. -/
theorem bounds_of_mem {a b : ℕ} {items : List ι} (tiles : Tiles low high a items b) {x : ι}
    (member : x ∈ items) : a ≤ low x ∧ low x ≤ high x ∧ high x ≤ b := by
  obtain ⟨before, after, rfl⟩ := List.append_of_mem member
  obtain ⟨mid, left, start, ordered, right⟩ := append_iff.mp tiles
  exact ⟨start ▸ left.le, ordered, right.le⟩

/-- Earlier tiles end before later ones start. -/
theorem pairwise {a b : ℕ} {items : List ι} (tiles : Tiles low high a items b) :
    items.Pairwise (fun x y => high x ≤ low y) := by
  induction items generalizing a with
  | nil => exact .nil
  | cons x rest ih =>
    obtain ⟨_, _, tail⟩ := tiles
    exact .cons (fun y member => (tail.bounds_of_mem member).1) (ih tail)

/-- Two different tiles of positive length are disjoint, and two tiles with one start are the same. -/
theorem eq_or_disjoint {a b : ℕ} {items : List ι} (tiles : Tiles low high a items b) {x y : ι}
    (memX : x ∈ items) (memY : y ∈ items) : x = y ∨ high x ≤ low y ∨ high y ≤ low x := by
  have ordered := tiles.pairwise
  clear tiles
  induction items with
  | nil => cases memX
  | cons z rest ih =>
    obtain ⟨head, tail⟩ := List.pairwise_cons.mp ordered
    rcases List.mem_cons.mp memX with rfl | restX <;> rcases List.mem_cons.mp memY with rfl | restY
    · exact Or.inl rfl
    · exact Or.inr (Or.inl (head y restY))
    · exact Or.inr (Or.inr (head x restX))
    · exact ih restX restY tail

/-- The tiles say where the range ends. -/
theorem stop_unique {a b c : ℕ} {items : List ι} (left : Tiles low high a items b)
    (right : Tiles low high a items c) : b = c := by
  induction items generalizing a with
  | nil => exact left.symm.trans right
  | cons x rest ih => exact ih left.2.2 right.2.2

/-- Changing items without moving their intervals keeps the tiling. -/
theorem map {f : ι → ι} (keepLow : ∀ x, low (f x) = low x) (keepHigh : ∀ x, high (f x) = high x)
    {a b : ℕ} {items : List ι} (tiles : Tiles low high a items b) :
    Tiles low high a (items.map f) b := by
  induction items generalizing a with
  | nil => exact tiles
  | cons x rest ih =>
    obtain ⟨start, ordered, tail⟩ := tiles
    simp only [List.map_cons, Tiles, keepLow, keepHigh]
    exact ⟨start, ordered, ih tail⟩

end Tiles

end RaryOS.Core
