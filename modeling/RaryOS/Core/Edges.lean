import Mathlib.Data.Nat.Count
import Mathlib.Data.Set.Card

/-! # Items that appear

A detector compares each list of a sequence with the one before it and reports the items that are new.
Over a whole sequence an item is reported once for each maximal run of lists that contain it. When some
lists are disturbed and show no item, an item may be reported again in the middle of a stretch;
`reportedOnce_iff` says exactly when that cannot happen.
-/

namespace RaryOS.Core

/-! ## Maximal runs -/

/-- All indices from `i` up to `j` satisfy `P`, and neither neighbour below `n` does. -/
structure MaximalRun (P : ℕ → Prop) (n i j : ℕ) : Prop where
  nonempty : i < j
  inside : j ≤ n
  all : ∀ t, i ≤ t → t < j → P t
  left : i = 0 ∨ ¬P (i - 1)
  right : j = n ∨ ¬P j

/-- The number of maximal runs below `n`. -/
noncomputable def maximalRuns (P : ℕ → Prop) (n : ℕ) : ℕ := {r : ℕ × ℕ | MaximalRun P n r.1 r.2}.ncard

section Runs

variable {P : ℕ → Prop} {n i j k : ℕ}

/-- A maximal run is determined by its start. -/
theorem MaximalRun.stop_unique (first : MaximalRun P n i j) (second : MaximalRun P n i k) : j = k := by
  have shorter : ∀ {j k : ℕ}, MaximalRun P n i j → MaximalRun P n i k → ¬j < k := by
    intro j k first second less
    rcases first.right with last | ends
    · exact absurd second.inside (by omega)
    · exact ends (second.all j first.nonempty.le less)
  exact Nat.le_antisymm (Nat.le_of_not_lt (shorter second first)) (Nat.le_of_not_lt (shorter first second))

/-- A run begins wherever `P` holds and did not hold before. -/
theorem exists_maximalRun (bound : i < n) (holds : P i) (left : i = 0 ∨ ¬P (i - 1)) :
    ∃ j, MaximalRun P n i j := by
  classical
  have some_ : ∃ j, i < j ∧ (j = n ∨ ¬P j) := ⟨n, bound, .inl rfl⟩
  obtain ⟨after, right⟩ := Nat.find_spec some_
  have before : ∀ t, i < t → t < Nat.find some_ → t ≠ n ∧ P t := by
    intro t above below
    have skipped := Nat.find_min some_ below
    push Not at skipped
    exact skipped above
  refine ⟨Nat.find some_, after, ?_, fun t lower below => ?_, left, right⟩
  · apply Nat.le_of_not_lt
    intro above
    exact (before n bound above).1 rfl
  · rcases Nat.eq_or_lt_of_le lower with rfl | above
    · exact holds
    · exact (before t above below).2

theorem maximalRuns_eq_count (P : ℕ → Prop) [DecidablePred P] (n : ℕ) :
    maximalRuns P n = Nat.count (fun i => P i ∧ (i = 0 ∨ ¬P (i - 1))) n := by
  have starts : Prod.fst '' {r : ℕ × ℕ | MaximalRun P n r.1 r.2} =
      ((Finset.range n).filter fun i => P i ∧ (i = 0 ∨ ¬P (i - 1)) : Set ℕ) := by
    ext i
    simp only [Set.mem_image, Set.mem_ofPred_eq, Prod.exists, exists_and_right, exists_eq_right,
      Finset.coe_filter, Finset.mem_range]
    constructor
    · rintro ⟨j, run⟩
      exact ⟨Nat.lt_of_lt_of_le run.nonempty run.inside, run.all i le_rfl run.nonempty, run.left⟩
    · rintro ⟨bound, holds, left⟩
      exact exists_maximalRun bound holds left
  have injective : Set.InjOn Prod.fst {r : ℕ × ℕ | MaximalRun P n r.1 r.2} := by
    rintro ⟨i, j⟩ first ⟨i', k⟩ second same
    obtain rfl : i = i' := same
    exact congrArg (Prod.mk i) (MaximalRun.stop_unique first second)
  rw [maximalRuns, ← injective.ncard_image, starts, Set.ncard_coe_finset,
    Nat.count_eq_card_filter_range]

end Runs

/-! ## The detector -/

variable {α : Type*} [DecidableEq α] (shown : α → Bool)

/-- The items of a list that are shown and were not in the list before, in the list's order. -/
def newItems (prev items : List α) : List α := items.filter fun a => shown a && decide (a ∉ prev)

/-- The items reported for each list of a sequence. -/
def edges (prev : List α) : List (List α) → List (List α)
  | [] => []
  | items :: rest => newItems shown prev items :: edges items rest

theorem count_newItems (prev items : List α) (a : α) :
    (newItems shown prev items).count a = if shown a ∧ a ∉ prev then items.count a else 0 := by
  rw [newItems]
  split
  · next new =>
    exact List.count_filter (by rw [new.1, decide_eq_true new.2, Bool.and_true])
  · next old =>
    refine List.count_eq_zero_of_not_mem fun member => old ?_
    have passes := (List.mem_filter.mp member).2
    rw [Bool.and_eq_true, decide_eq_true_iff] at passes
    exact passes

private theorem getLastD_append {β : Type*} (first second : List β) (b : β) :
    (first ++ second).getLastD b = second.getLastD (first.getLastD b) := by
  induction first generalizing b with
  | nil => rfl
  | cons c first ih => rw [List.cons_append, List.getLastD_cons, List.getLastD_cons, ih]

theorem edges_append (prev : List α) (first second : List (List α)) :
    edges shown prev (first ++ second) =
      edges shown prev first ++ edges shown (first.getLastD prev) second := by
  induction first generalizing prev with
  | nil => rfl
  | cons items first ih =>
    rw [List.cons_append, edges, edges, ih, List.cons_append, List.getLastD_cons]

/-- Within one list the reports come in the list's order. -/
theorem edges_sublist (prev : List α) (lists : List (List α)) :
    List.Forall₂ List.Sublist (edges shown prev lists) lists := by
  induction lists generalizing prev with
  | nil => exact .nil
  | cons items rest ih => exact .cons List.filter_sublist (ih items)

/-- An item that no list has twice is reported wherever it is in a list and not in the one before. -/
theorem edges_count {a : α} (visible : shown a) {lists : List (List α)}
    (once : ∀ items ∈ lists, items.count a ≤ 1) (prev : List α) :
    (edges shown prev lists).flatten.count a =
      Nat.count (fun i => a ∈ lists.getD i [] ∧ a ∉ (prev :: lists).getD i []) lists.length := by
  induction lists generalizing prev with
  | nil => rfl
  | cons items rest ih =>
    rw [edges, List.flatten_cons, List.count_append, ih (fun items member =>
      once items (List.mem_cons_of_mem _ member)), List.length_cons, Nat.count_succ', Nat.add_comm,
      count_newItems]
    simp only [List.getD_cons_succ, List.getD_cons_zero, visible, true_and]
    congr 1
    by_cases member : a ∈ items
    · have count : items.count a = 1 :=
        Nat.le_antisymm (once items List.mem_cons_self) (List.count_pos_iff.mpr member)
      simp only [member, true_and, count]
    · simp only [member, false_and, if_false, List.count_eq_zero_of_not_mem member, ite_self]

/-- It is reported once for each maximal run of lists that contain it. -/
theorem edges_count_eq_maximalRuns {a : α} (visible : shown a) {lists : List (List α)}
    (once : ∀ items ∈ lists, items.count a ≤ 1) {prev : List α} (absent : a ∉ prev) :
    (edges shown prev lists).flatten.count a =
      maximalRuns (fun i => a ∈ lists.getD i []) lists.length := by
  rw [edges_count shown visible once, maximalRuns_eq_count]
  congr 1
  funext i
  cases i with
  | zero => simp only [List.getD_cons_zero, absent, not_false_eq_true, true_or]
  | succ i => simp only [List.getD_cons_succ, Nat.add_sub_cancel, Nat.add_one_ne_zero, false_or]

/-! ## Disturbed lists -/

section Disturbed

variable {ι : Type*} (items : ι → List α) (good : ι → Prop) (prev : List α)

/-- How often an item is reported in a stretch that follows `before`. -/
def reportsIn (before stretch : List ι) (a : α) : ℕ :=
  (edges shown ((before.map items).getLastD prev) (stretch.map items)).flatten.count a

/-- In every stretch whose good lists all contain an item, it is reported at most once. -/
def ReportedOnce (cs : List ι) : Prop :=
  ∀ before stretch after, cs = before ++ stretch ++ after → ∀ a,
    (∀ c ∈ stretch, good c → a ∈ items c) → reportsIn shown items prev before stretch a ≤ 1

/-- Two good lists with disturbed ones between them, and no good one, have no shown item in common. -/
def DisturbedApart (cs : List ι) : Prop :=
  ∀ before c bad d after, cs = before ++ c :: (bad ++ d :: after) → good c → good d → bad ≠ [] →
    (∀ b ∈ bad, ¬good b) → ∀ a, shown a → a ∈ items c → a ∉ items d

/-- A list has no shown item twice that was not in the list before. -/
def NoDoubles (cs : List ι) : Prop :=
  ∀ before c after, cs = before ++ c :: after → ∀ a, shown a → 2 ≤ (items c).count a →
    a ∈ (before.map items).getLastD prev

variable {shown items good prev} {before stretch : List ι} {c : ι} {a : α}

theorem reportsIn_append (before first second : List ι) (a : α) :
    reportsIn shown items prev before (first ++ second) a =
      reportsIn shown items prev before first a +
        reportsIn shown items prev (before ++ first) second a := by
  have last : (((before ++ first).map items).getLastD prev) =
      (first.map items).getLastD ((before.map items).getLastD prev) := by
    rw [List.map_append, getLastD_append]
  rw [reportsIn, reportsIn, reportsIn, List.map_append, edges_append, List.flatten_append,
    List.count_append, last]

theorem reportsIn_singleton (before : List ι) (c : ι) (a : α) :
    reportsIn shown items prev before [c] a =
      if shown a ∧ a ∉ (before.map items).getLastD prev then (items c).count a else 0 := by
  rw [reportsIn, List.map_singleton, edges, edges, List.flatten_cons, List.flatten_nil, List.append_nil,
    count_newItems]

theorem reportsIn_cons (before : List ι) (c : ι) (stretch : List ι) (a : α) :
    reportsIn shown items prev before (c :: stretch) a =
      reportsIn shown items prev before [c] a +
        reportsIn shown items prev (before ++ [c]) stretch a := by
  rw [← reportsIn_append, List.singleton_append]

omit [DecidableEq α] in
theorem last_concat (before : List ι) (c : ι) :
    ((before ++ [c]).map items).getLastD prev = items c := by
  rw [List.map_append, List.map_singleton, List.getLastD_concat]

section Rule

variable (disturbed : ∀ c, ¬good c → ∀ a ∈ items c, ¬shown a)

include disturbed

/-- A disturbed list reports nothing. -/
theorem reportsIn_bad (bad : ¬good c) (before : List ι) (a : α) :
    reportsIn shown items prev before [c] a = 0 := by
  rw [reportsIn_singleton]
  split
  · next new => exact List.count_eq_zero_of_not_mem fun member => disturbed c bad a member new.1
  · rfl

/-- After a good list with the item it is not reported again, because after a disturbed list no good
one may have it. -/
theorem reportsIn_held {cs : List ι} (apart : DisturbedApart shown items good cs) (visible : shown a) :
    ∀ (stretch bad before : List ι) (c : ι) (after : List ι),
      cs = before ++ c :: (bad ++ (stretch ++ after)) → good c → a ∈ items c → (∀ b ∈ bad, ¬good b) →
      (∀ d ∈ stretch, good d → a ∈ items d) →
      reportsIn shown items prev (before ++ c :: bad) stretch a = 0 := by
  intro stretch
  induction stretch with
  | nil => exact fun _ _ _ _ _ _ _ _ _ => rfl
  | cons d stretch ih =>
    intro bad before c after split_ goodC member allBad all
    rw [reportsIn_cons]
    by_cases goodD : good d
    · have memberD := all d List.mem_cons_self goodD
      have none : bad = [] := by
        by_contra nonempty
        exact apart before c bad d (stretch ++ after) split_ goodC goodD nonempty allBad a visible member
          memberD
      subst none
      have first : reportsIn shown items prev (before ++ [c]) [d] a = 0 := by
        rw [reportsIn_singleton, last_concat, if_neg fun new => new.2 member]
      rw [first, Nat.zero_add]
      refine ih [] (before ++ [c]) d after ?_ goodD memberD ?_ ?_
      · rw [split_]
        simp only [List.nil_append, List.append_assoc, List.cons_append]
      · exact fun b inside => absurd inside List.not_mem_nil
      · exact fun e inside => all e (List.mem_cons_of_mem d inside)
    · rw [reportsIn_bad disturbed goodD, Nat.zero_add]
      have rest := ih (bad ++ [d]) before c after ?_ goodC member ?_ ?_
      · rwa [List.append_assoc, List.cons_append]
      · rw [split_]
        simp only [List.append_assoc, List.cons_append, List.nil_append]
      · intro b inside
        rcases List.mem_append.mp inside with earlier | last
        · exact allBad b earlier
        · exact List.mem_singleton.mp last ▸ goodD
      · exact fun e inside => all e (List.mem_cons_of_mem d inside)

theorem reportsIn_le_one {cs : List ι} (apart : DisturbedApart shown items good cs)
    (noDoubles : NoDoubles shown items prev cs) (visible : shown a) :
    ∀ (stretch before after : List ι), cs = before ++ stretch ++ after →
      (∀ c ∈ stretch, good c → a ∈ items c) → reportsIn shown items prev before stretch a ≤ 1 := by
  intro stretch
  induction stretch with
  | nil => exact fun _ _ _ _ => Nat.zero_le 1
  | cons c stretch ih =>
    intro before after split_ all
    rw [reportsIn_cons]
    have rest : ∀ d ∈ stretch, good d → a ∈ items d :=
      fun d inside => all d (List.mem_cons_of_mem c inside)
    rw [List.append_assoc, List.cons_append] at split_
    by_cases goodC : good c
    · have held : reportsIn shown items prev (before ++ [c]) stretch a = 0 :=
        reportsIn_held disturbed apart visible stretch [] before c after split_ goodC
          (all c List.mem_cons_self goodC) (fun b inside => absurd inside List.not_mem_nil) rest
      rw [held, Nat.add_zero, reportsIn_singleton]
      split
      · next new =>
        refine Nat.le_of_not_lt fun twice => new.2 ?_
        exact noDoubles before c _ split_ a visible twice
      · exact Nat.zero_le 1
    · rw [reportsIn_bad disturbed goodC, Nat.zero_add]
      refine ih (before ++ [c]) after ?_ rest
      rw [split_]
      simp only [List.append_assoc, List.cons_append, List.nil_append]

/-- Some stretch that ends at a good list with the item reports it. -/
theorem exists_reported (fresh : ∀ a ∈ prev, ¬shown a) (visible : shown a) (before : List ι) :
    ∀ c, good c → a ∈ items c → ∃ first stretch, before ++ [c] = first ++ stretch ∧
      (∀ d ∈ stretch, good d → a ∈ items d) ∧ 1 ≤ reportsIn shown items prev first stretch a := by
  induction before using List.reverseRecOn with
  | nil =>
    intro c _ member
    refine ⟨[], [c], rfl, fun d inside _ => List.mem_singleton.mp inside ▸ member, ?_⟩
    rw [reportsIn_singleton, if_pos ⟨visible, fun old => fresh a old visible⟩]
    exact List.count_pos_iff.mpr member
  | append_singleton before c' ih =>
    intro c _ member
    by_cases held : a ∈ items c'
    · have good' : good c' := by
        by_contra bad
        exact disturbed c' bad a held visible
      obtain ⟨first, stretch, split_, all, reported⟩ := ih c' good' held
      refine ⟨first, stretch ++ [c], by rw [split_, List.append_assoc], fun d inside goodD => ?_, ?_⟩
      · rcases List.mem_append.mp inside with earlier | last
        · exact all d earlier goodD
        · exact List.mem_singleton.mp last ▸ member
      · rw [reportsIn_append]
        exact Nat.le_add_right_of_le reported
    · refine ⟨before ++ [c'], [c], rfl, fun d inside _ => List.mem_singleton.mp inside ▸ member, ?_⟩
      rw [reportsIn_singleton, last_concat, if_pos ⟨visible, held⟩]
      exact List.count_pos_iff.mpr member

/-- Items are reported at most once in every such stretch exactly when no disturbed lists stand between
two good ones with a common item, and no list has an item twice when it is new. -/
theorem reportedOnce_iff (fresh : ∀ a ∈ prev, ¬shown a) (cs : List ι) :
    ReportedOnce shown items good prev cs ↔
      DisturbedApart shown items good cs ∧ NoDoubles shown items prev cs := by
  constructor
  · intro once
    constructor
    · intro before c bad d after split_ goodC goodD nonempty allBad a visible memberC memberD
      obtain ⟨first, stretch, prefix_, all, reported⟩ :=
        exists_reported disturbed fresh visible before c goodC memberC
      obtain ⟨init, b, rfl⟩ : ∃ init b, bad = init ++ [b] :=
        (List.eq_nil_or_concat' bad).resolve_left nonempty
      have bound := once first (stretch ++ ((init ++ [b]) ++ [d])) after ?_ a ?_
      · have again : reportsIn shown items prev (first ++ stretch ++ (init ++ [b])) [d] a =
            (items d).count a := by
          rw [reportsIn_singleton, ← List.append_assoc, last_concat,
            if_pos ⟨visible, fun old => disturbed b (allBad b (by simp)) a old visible⟩]
        have positive := List.count_pos_iff.mpr memberD
        rw [reportsIn_append, reportsIn_append, again] at bound
        omega
      · rw [← List.append_assoc first, ← prefix_, split_]
        simp only [List.append_assoc, List.cons_append, List.nil_append]
      · intro e inside goodE
        rcases List.mem_append.mp inside with earlier | later
        · exact all e earlier goodE
        · rcases List.mem_append.mp later with inBad | last
          · exact absurd goodE (allBad e inBad)
          · exact List.mem_singleton.mp last ▸ memberD
    · intro before c after split_ a visible twice
      by_contra new
      have bound := once before [c] after (by rw [split_]; simp) a fun d inside _ => by
        rw [List.mem_singleton.mp inside]
        exact List.count_pos_iff.mp (by omega)
      rw [reportsIn_singleton, if_pos ⟨visible, new⟩] at bound
      omega
  · rintro ⟨apart, noDoubles⟩ before stretch after split_ a all
    by_cases visible : shown a
    · exact reportsIn_le_one disturbed apart noDoubles visible stretch before after split_ all
    · have hidden : ∀ (stretch before : List ι), reportsIn shown items prev before stretch a = 0 := by
        intro stretch
        induction stretch with
        | nil => exact fun _ => rfl
        | cons c stretch ih =>
          intro before
          rw [reportsIn_cons, ih, reportsIn_singleton, if_neg fun new => visible new.1]
      rw [hidden]
      exact Nat.zero_le 1

end Rule

end Disturbed

end RaryOS.Core
