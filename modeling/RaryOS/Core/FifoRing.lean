import Mathlib.Data.Nat.ModEq
import Mathlib.Logic.Function.Basic
import Mathlib.Tactic.Common
import RaryOS.Core.CycleRing

/-! # Queues in a ring with one slot kept free

Items are counted from the start: item `k` goes to slot `k % N`. The ring holds the items from
`removed` on, and never `N` of them, so that the slots of the first and of the next item tell an empty
ring from a full one.
-/

namespace RaryOS.Core

variable {α : Type*}

/-- The ring holds the items that were not removed. -/
structure FifoRing (N : ℕ) (slots : ℕ → α) (items : List α) (removed : ℕ) : Prop where
  le : removed ≤ items.length
  room : items.length < removed + N
  stored : ∀ k (bound : k < items.length), removed ≤ k → slots (k % N) = items[k]

namespace FifoRing

variable {N removed : ℕ} {slots : ℕ → α} {items : List α}

theorem empty (positive : 0 < N) (slots : ℕ → α) : FifoRing N slots [] 0 :=
  ⟨Nat.le_refl 0, by rwa [List.length_nil, Nat.zero_add],
    fun _ bound => absurd bound (Nat.not_lt_zero _)⟩

/-- The two slots agree exactly when there is no item. -/
theorem empty_iff (ring : FifoRing N slots items removed) :
    items.length % N = removed % N ↔ removed = items.length := by
  constructor
  · intro same
    by_contra other
    exact slot_ne (Nat.lt_of_le_of_ne ring.le other) ring.room same.symm
  · intro same
    rw [same]

/-- The slot after the next item's is the first item's exactly when one slot is free. -/
theorem full_iff (ring : FifoRing N slots items removed) :
    (items.length + 1) % N = removed % N ↔ items.length + 1 = removed + N := by
  constructor
  · intro same
    by_contra other
    have le := ring.le
    have room := ring.room
    exact slot_ne (by omega : removed < items.length + 1) (by omega) same.symm
  · intro full
    rw [full, Nat.add_mod_right]

theorem push (ring : FifoRing N slots items removed) (room : items.length + 1 ≠ removed + N) (a : α) :
    FifoRing N (Function.update slots (items.length % N) a) (items ++ [a]) removed := by
  have length : (items ++ [a]).length = items.length + 1 := by
    rw [List.length_append, List.length_singleton]
  have below := ring.room
  refine ⟨?_, ?_, fun k bound kept => ?_⟩
  · exact length ▸ Nat.le_succ_of_le ring.le
  · rw [length]
    omega
  · rw [length] at bound
    rcases Nat.lt_succ_iff_lt_or_eq.mp bound with earlier | rfl
    · rw [List.getElem_append_left earlier, Function.update_of_ne (slot_ne earlier (by omega))]
      exact ring.stored k earlier kept
    · rw [List.getElem_concat_length rfl, Function.update_self]

theorem pop (ring : FifoRing N slots items removed) (nonempty : removed < items.length) :
    FifoRing N slots items (removed + 1) :=
  ⟨nonempty, by have := ring.room; omega, fun k bound kept => ring.stored k bound (Nat.le_of_succ_le kept)⟩

end FifoRing

end RaryOS.Core
