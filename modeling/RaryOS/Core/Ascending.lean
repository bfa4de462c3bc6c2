import Mathlib.Data.Nat.Count

/-! # Taking the least remaining member

A server that always hands out the least member of a set that it has not handed out yet has, after `n`
requests, handed out exactly the members with fewer than `n` members below them.
-/

namespace RaryOS.Core

variable {P : ℕ → Prop} [DecidablePred P]

/-- The member `f` has fewer than `n` members below it. -/
def InFirst (P : ℕ → Prop) [DecidablePred P] (n f : ℕ) : Prop := P f ∧ Nat.count P f < n

theorem not_inFirst_zero (f : ℕ) : ¬InFirst P 0 f := fun first => Nat.not_lt_zero _ first.2

theorem exists_count_eq {n f : ℕ} (below : n < Nat.count P f) : ∃ g < f, P g ∧ Nat.count P g = n := by
  induction f with
  | zero => simp only [Nat.count_zero, Nat.not_lt_zero] at below
  | succ f ih =>
    rcases Nat.lt_or_ge n (Nat.count P f) with lower | same
    · obtain ⟨g, bound, member, count⟩ := ih lower
      exact ⟨g, by omega, member, count⟩
    · rw [Nat.count_succ] at below
      split at below
      · next member => exact ⟨f, Nat.lt_succ_self f, member, by omega⟩
      · omega

section Lowest

variable {n f : ℕ} (member : P f) (fresh : ¬InFirst P n f)
  (lower : ∀ g < f, P g → InFirst P n g)

include member fresh lower

/-- The least member that is not among the first `n` has exactly `n` members below it. -/
theorem count_eq_of_lowest : Nat.count P f = n := by
  have atLeast : n ≤ Nat.count P f := Nat.le_of_not_lt fun below => fresh ⟨member, below⟩
  refine Nat.le_antisymm (Nat.le_of_not_lt fun above => ?_) atLeast
  obtain ⟨g, bound, other, count⟩ := exists_count_eq above
  have first := (lower g bound other).2
  omega

/-- It is the one member that the first `n + 1` have more. -/
theorem inFirst_succ_of_lowest (g : ℕ) : InFirst P (n + 1) g ↔ g = f ∨ InFirst P n g := by
  have rank := count_eq_of_lowest member fresh lower
  constructor
  · rintro ⟨other, bound⟩
    rcases Nat.lt_or_eq_of_le (Nat.le_of_lt_succ bound) with first | last
    · exact .inr ⟨other, first⟩
    · exact .inl (Nat.count_injective other member (last.trans rank.symm))
  · rintro (rfl | ⟨other, first⟩)
    · exact ⟨member, by omega⟩
    · exact ⟨other, by omega⟩

end Lowest

/-- When all members are among the first `n`, there are no more to come. -/
theorem inFirst_succ_of_all {n : ℕ} (all : ∀ f, P f → InFirst P n f) (g : ℕ) :
    InFirst P (n + 1) g ↔ InFirst P n g :=
  ⟨fun first => all g first.1, fun first => ⟨first.1, Nat.lt_succ_of_lt first.2⟩⟩

end RaryOS.Core
