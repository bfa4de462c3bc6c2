import Mathlib.Data.Finset.Card

/-! # Searches along a chain

A chain goes from a place to the next one until there is none. A search that gives up after a number of places misses
nothing, if there are not more places than that: a chain that comes to a place again only repeats itself.
-/

namespace RaryOS.Core.Chain

variable {α : Type*} (next : α → Option α)

/-- The `k`th place of the chain from `a`. -/
def place (a : α) : (k : ℕ) → Option α
  | 0 => some a
  | k + 1 => (place a k).bind next

/-- The first place that is looked for, among `guard` places. -/
def search (hit : α → Bool) : (guard : ℕ) → Option α → Option α
  | 0, _ => none
  | _ + 1, none => none
  | guard + 1, some a => if hit a then some a else search hit guard (next a)

/-- The `k`th place is the first that is looked for. -/
structure First (hit : α → Bool) (a : α) (k : ℕ) (b : α) : Prop where
  found : place next a k = some b
  hits : hit b = true
  missed : ∀ j < k, ∀ c, place next a j = some c → hit c = false

variable {next} {hit : α → Bool} {a b : α} {k guard : ℕ}

theorem place_succ (a : α) (k : ℕ) : place next a (k + 1) = (next a).bind fun b => place next b k := by
  induction k with
  | zero =>
    rw [place, place, Option.bind_some]
    cases next a <;> rfl
  | succ k ih =>
    rw [place, ih, Option.bind_assoc]
    rfl

/-- Equal places go on equally. -/
theorem place_add {i j : ℕ} (same : place next a i = place next a j) (m : ℕ) :
    place next a (i + m) = place next a (j + m) := by
  induction m with
  | zero => exact same
  | succ m ih => exact congrArg (Option.bind · next) ih

/-- A chain that has a place has the places before it. -/
theorem exists_place (found : place next a k = some b) {j : ℕ} (le : j ≤ k) : ∃ c, place next a j = some c := by
  obtain ⟨m, rfl⟩ := Nat.exists_eq_add_of_le le
  induction m generalizing b with
  | zero => exact ⟨b, found⟩
  | succ m ih =>
    obtain ⟨c, earlier, _⟩ := Option.bind_eq_some_iff.mp found
    exact ih earlier (Nat.le_add_right j m)

theorem place_mem {S : Finset α} (start : a ∈ S) (closed : ∀ a ∈ S, ∀ b, next a = some b → b ∈ S)
    (found : place next a k = some b) : b ∈ S := by
  induction k generalizing b with
  | zero =>
    obtain rfl := Option.some.inj found
    exact start
  | succ k ih =>
    obtain ⟨c, earlier, link⟩ := Option.bind_eq_some_iff.mp found
    exact closed c (ih earlier) b link

theorem First.tail (first : First next hit a k b) (other : hit a = false) :
    ∃ k' a', k = k' + 1 ∧ next a = some a' ∧ First next hit a' k' b := by
  cases k with
  | zero =>
    obtain rfl := Option.some.inj first.found
    exact absurd (other.symm.trans first.hits) Bool.false_ne_true
  | succ k =>
    have found := first.found
    rw [place_succ] at found
    obtain ⟨a', link, rest⟩ := Option.bind_eq_some_iff.mp found
    refine ⟨k, a', rfl, link, rest, first.hits, fun j lt c here => ?_⟩
    refine first.missed (j + 1) (Nat.succ_lt_succ lt) c ?_
    rw [place_succ, link]
    exact here

theorem First.cons {a' : α} (first : First next hit a' k b) (other : hit a = false) (link : next a = some a') :
    First next hit a (k + 1) b := by
  refine ⟨?_, first.hits, fun j lt c here => ?_⟩
  · rw [place_succ, link]
    exact first.found
  · cases j with
    | zero =>
      obtain rfl := Option.some.inj here
      exact other
    | succ j =>
      rw [place_succ, link] at here
      exact first.missed j (Nat.lt_of_succ_lt_succ lt) c here

/-- Before the first hit no place comes twice. -/
theorem First.injective (first : First next hit a k b) {i j : ℕ} (lt : i < j) (le : j ≤ k) :
    place next a i ≠ place next a j := by
  intro same
  have again := place_add same (k - j)
  rw [Nat.add_sub_cancel' le, first.found] at again
  have missed := first.missed (i + (k - j)) (by omega) b again
  exact Bool.false_ne_true (missed.symm.trans first.hits)

/-- So it is among as many places as there are. -/
theorem First.lt_card {S : Finset α} (first : First next hit a k b) (start : a ∈ S)
    (closed : ∀ a ∈ S, ∀ b, next a = some b → b ∈ S) : k < S.card := by
  have inside : ∀ i ∈ Finset.range (k + 1), (place next a i).getD a ∈ S := by
    intro i below
    obtain ⟨c, found⟩ := exists_place first.found (Nat.lt_succ_iff.mp (Finset.mem_range.mp below))
    rw [found]
    exact place_mem start closed found
  have distinct : Set.InjOn (fun i => (place next a i).getD a) ↑(Finset.range (k + 1)) := by
    intro i iBelow j jBelow same
    have iLe := Nat.lt_succ_iff.mp (Finset.mem_range.mp iBelow)
    have jLe := Nat.lt_succ_iff.mp (Finset.mem_range.mp jBelow)
    obtain ⟨c, iFound⟩ := exists_place first.found iLe
    obtain ⟨d, jFound⟩ := exists_place first.found jLe
    have places : place next a i = place next a j := by
      dsimp only at same
      rw [iFound, jFound] at same ⊢
      exact congrArg some same
    rcases Nat.lt_trichotomy i j with lt | eq | gt
    · exact absurd places (first.injective lt jLe)
    · exact eq
    · exact absurd places.symm (first.injective gt iLe)
  have count := Finset.card_le_card_of_injOn _ inside distinct
  rwa [Finset.card_range] at count

theorem search_eq_some_iff : search next hit guard (some a) = some b ↔ ∃ k < guard, First next hit a k b := by
  induction guard generalizing a with
  | zero => exact iff_of_false (fun found => by cases found) fun ⟨k, lt, _⟩ => absurd lt (Nat.not_lt_zero k)
  | succ guard ih =>
    rw [search]
    cases here : hit a with
    | true =>
      rw [if_pos rfl]
      constructor
      · intro same
        obtain rfl := Option.some.inj same
        exact ⟨0, Nat.succ_pos guard, rfl, here, fun j lt => absurd lt (Nat.not_lt_zero j)⟩
      · rintro ⟨k, _, first⟩
        rcases Nat.eq_zero_or_pos k with rfl | later
        · exact first.found
        · exact absurd ((first.missed 0 later a rfl).symm.trans here) Bool.false_ne_true
    | false =>
      rw [if_neg Bool.false_ne_true]
      cases link : next a with
      | none =>
        have stuck : search next hit guard none = none := by cases guard <;> rfl
        rw [stuck]
        refine iff_of_false (fun found => by cases found) fun ⟨k, _, first⟩ => ?_
        obtain ⟨_, _, _, link', _⟩ := first.tail here
        cases link.symm.trans link'
      | some a' =>
        rw [ih]
        constructor
        · rintro ⟨k, lt, first⟩
          exact ⟨k + 1, Nat.succ_lt_succ lt, first.cons here link⟩
        · rintro ⟨k, lt, first⟩
          obtain ⟨k', c, rfl, link', rest⟩ := first.tail here
          obtain rfl := Option.some.inj (link.symm.trans link')
          exact ⟨k', Nat.lt_of_succ_lt_succ lt, rest⟩

/-- With a guard for all places, the search finds the first hit of the chain. -/
theorem search_complete {S : Finset α} (start : a ∈ S) (closed : ∀ a ∈ S, ∀ b, next a = some b → b ∈ S)
    (enough : S.card ≤ guard) : search next hit guard (some a) = some b ↔ ∃ k, First next hit a k b := by
  rw [search_eq_some_iff]
  constructor
  · rintro ⟨k, _, first⟩
    exact ⟨k, first⟩
  · rintro ⟨k, first⟩
    exact ⟨k, (first.lt_card start closed).trans_le enough, first⟩

end RaryOS.Core.Chain
