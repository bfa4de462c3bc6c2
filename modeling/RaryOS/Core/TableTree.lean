import Mathlib.Data.List.Basic
import Mathlib.Tactic.Common

/-! # Trees of tables

A store gives an entry to every index of every table, and some entries are links to further tables.
`descend` follows a path of indices from a table, `lookup` finds the entry at which a path ends: a
link does not end it unless the path does. In a `TableTree` no table is reached on two paths, down to
a given depth. Writing one entry of a reached table then affects the paths through that entry only,
and it keeps the tree if the entry links nowhere, or to an empty table that was not reached before, or
lies at the given depth. `trail` lists the entries that following a path reads.
-/

namespace RaryOS.Core

variable {α ι E : Type*} (child : E → Option α)

/-- The table at the end of a path. -/
def descend (T : α → ι → E) : α → List ι → Option α
  | t, [] => some t
  | t, i :: path => (child (T t i)).bind fun u => descend T u path

/-- The entry at which a path ends, with the number of indices that are left. -/
def lookup (T : α → ι → E) : α → List ι → Option (E × ℕ)
  | _, [] => none
  | t, [i] => some (T t i, 0)
  | t, i :: j :: path =>
    match child (T t i) with
    | some u => lookup T u (j :: path)
    | none => some (T t i, path.length + 1)

/-- The entries read along a path, up to and including the first that is no link. -/
def trail (T : α → ι → E) : α → List ι → List E
  | _, [] => []
  | t, i :: path =>
    T t i ::
      match child (T t i) with
      | some u => trail T u path
      | none => []

/-- Some path of at most `depth` indices leads to the table. -/
def Reached (T : α → ι → E) (root : α) (depth : ℕ) (t : α) : Prop :=
  ∃ path : List ι, path.length ≤ depth ∧ descend child T root path = some t

/-- No table is reached on two paths. -/
def TableTree (T : α → ι → E) (root : α) (depth : ℕ) : Prop :=
  ∀ p q : List ι, ∀ t, p.length ≤ depth → q.length ≤ depth → descend child T root p = some t →
    descend child T root q = some t → p = q

variable {child} {T T' : α → ι → E}

theorem descend_append (t : α) (p q : List ι) :
    descend child T t (p ++ q) = (descend child T t p).bind fun u => descend child T u q := by
  induction p generalizing t with
  | nil => rfl
  | cons i p ih =>
    rw [List.cons_append, descend, descend]
    cases child (T t i) with
    | none => rfl
    | some u => exact ih u

/-- What a path reads decides where it leads. -/
theorem descend_congr {t : α} {path : List ι}
    (agree : ∀ p i q u, path = p ++ i :: q → descend child T t p = some u → T' u i = T u i) :
    descend child T' t path = descend child T t path := by
  induction path generalizing t with
  | nil => rfl
  | cons i path ih =>
    rw [descend, descend, agree [] i path t rfl rfl]
    cases link : child (T t i) with
    | none => rfl
    | some u =>
      refine ih fun p j q v split reach => agree (i :: p) j q v (by rw [split]; rfl) ?_
      rw [descend, link]
      exact reach

/-- A path that leads to a table continues there. -/
theorem lookup_append {t u : α} {p q : List ι} (reach : descend child T t p = some u) (nonempty : q ≠ []) :
    lookup child T t (p ++ q) = lookup child T u q := by
  induction p generalizing t with
  | nil =>
    cases reach
    rfl
  | cons i p ih =>
    rw [descend] at reach
    cases link : child (T t i) with
    | none =>
      rw [link] at reach
      cases reach
    | some v =>
      rw [link] at reach
      obtain ⟨j, rest, split⟩ := List.exists_cons_of_ne_nil (List.append_ne_nil_of_right_ne_nil p nonempty)
      rw [List.cons_append, split, lookup, link, ← split]
      exact ih reach

/-- What a path reads decides the entry at which it ends. -/
theorem lookup_congr {t : α} {path : List ι}
    (agree : ∀ p i q u, path = p ++ i :: q → descend child T t p = some u → T' u i = T u i) :
    lookup child T' t path = lookup child T t path := by
  induction path generalizing t with
  | nil => rfl
  | cons i path ih =>
    have here := agree [] i path t rfl rfl
    cases path with
    | nil => rw [lookup, lookup, here]
    | cons j path =>
      rw [lookup, lookup, here]
      cases link : child (T t i) with
      | none => rfl
      | some u =>
        refine ih fun p k q v split reach => agree (i :: p) k q v (by rw [split]; rfl) ?_
        rw [descend, link]
        exact reach

/-- What a path reads decides the entries on it. -/
theorem trail_congr {t : α} {path : List ι}
    (agree : ∀ p i q u, path = p ++ i :: q → descend child T t p = some u → T' u i = T u i) :
    trail child T' t path = trail child T t path := by
  induction path generalizing t with
  | nil => rfl
  | cons i path ih =>
    rw [trail, trail, agree [] i path t rfl rfl]
    cases link : child (T t i) with
    | none => rfl
    | some u =>
      refine congrArg (T t i :: ·) (ih fun p j q v split reach => ?_)
      apply agree (i :: p) j q v (by rw [split]; rfl)
      rw [descend, link]
      exact reach

/-- The entries on a path that leads to a table, and then those that are read from there. -/
theorem trail_append {t u : α} {p : List ι} (reach : descend child T t p = some u) (q : List ι) :
    trail child T t (p ++ q) = trail child T t p ++ trail child T u q := by
  induction p generalizing t with
  | nil =>
    cases reach
    rfl
  | cons i p ih =>
    rw [descend] at reach
    cases link : child (T t i) with
    | none =>
      rw [link] at reach
      cases reach
    | some v =>
      rw [link] at reach
      simp only [List.cons_append, trail, link]
      rw [ih reach]

/-- An entry on a path is read in a table that a part of the path leads to. -/
theorem mem_trail {t : α} {path : List ι} {e : E} (member : e ∈ trail child T t path) :
    ∃ p i q u, path = p ++ i :: q ∧ descend child T t p = some u ∧ e = T u i := by
  induction path generalizing t with
  | nil => cases member
  | cons i path ih =>
    rw [trail] at member
    rcases List.mem_cons.mp member with rfl | below
    · exact ⟨[], i, path, t, rfl, rfl, rfl⟩
    · cases link : child (T t i) with
      | none =>
        rw [link] at below
        cases below
      | some u =>
        rw [link] at below
        obtain ⟨p, j, q, v, rfl, reach, rfl⟩ := ih below
        refine ⟨i :: p, j, q, v, rfl, ?_, rfl⟩
        rw [descend, link]
        exact reach

/-- A path ends at an entry that is no link. -/
theorem lookup_of_none {t : α} {i : ι} (path : List ι) (none : child (T t i) = none) :
    lookup child T t (i :: path) = some (T t i, path.length) := by
  cases path with
  | nil => rfl
  | cons j path => simp only [lookup, none, List.length_cons]

/-- A nonempty path that follows a link. -/
theorem lookup_of_some {t u : α} {i : ι} {path : List ι} (link : child (T t i) = some u)
    (nonempty : path ≠ []) : lookup child T t (i :: path) = lookup child T u path :=
  lookup_append (p := [i]) (by rw [descend, link]; rfl) nonempty

theorem mem_trail_of_descend {t u : α} {p : List ι} (reach : descend child T t p = some u) (i : ι)
    (q : List ι) : T u i ∈ trail child T t (p ++ i :: q) := by
  rw [trail_append reach]
  exact List.mem_append_right _ List.mem_cons_self

/-- A path that leads to a table reads an entry at each of its indices. -/
theorem trail_length {t u : α} {p : List ι} (reach : descend child T t p = some u) :
    (trail child T t p).length = p.length := by
  induction p generalizing t with
  | nil => rfl
  | cons i p ih =>
    rw [descend] at reach
    cases link : child (T t i) with
    | none =>
      rw [link] at reach
      cases reach
    | some v =>
      rw [link] at reach
      simp only [trail, link, List.length_cons, ih reach]

/-- The entry at which a path ends is the last one on it. -/
theorem lookup_eq_trail (t : α) (path : List ι) :
    lookup child T t path = (trail child T t path).getLast?.map fun e =>
      (e, path.length - (trail child T t path).length) := by
  induction path generalizing t with
  | nil => rfl
  | cons i path ih =>
    cases link : child (T t i) with
    | none =>
      rw [lookup_of_none path link]
      simp only [trail, link, List.getLast?_singleton, Option.map_some, List.length_cons, List.length_nil]
      rfl
    | some u =>
      cases path with
      | nil =>
        simp only [lookup, trail, link, List.getLast?_singleton, Option.map_some, List.length_cons,
          List.length_nil, Nat.sub_self]
      | cons j path =>
        have here : trail child T t (i :: j :: path) = T t i :: trail child T u (j :: path) := by
          rw [trail, link]
        have last : trail child T u (j :: path) ≠ [] := List.cons_ne_nil _ _
        rw [lookup_of_some link (List.cons_ne_nil j path), ih, here, List.getLast?_cons_of_ne_nil last]
        simp only [List.length_cons, Nat.reduceSubDiff]

/-- A path is cut at the entry at which it ends. -/
theorem exists_of_lookup {t : α} {path : List ι} {e : E} {k : ℕ} (found : lookup child T t path = some (e, k)) :
    ∃ p i q u, path = p ++ i :: q ∧ q.length = k ∧ descend child T t p = some u ∧ T u i = e ∧
      trail child T t path = trail child T t p ++ [e] := by
  induction path generalizing t with
  | nil => cases found
  | cons i path ih =>
    cases link : child (T t i) with
    | none =>
      rw [lookup_of_none path link] at found
      obtain ⟨rfl, rfl⟩ := Prod.mk.inj (Option.some.inj found)
      refine ⟨[], i, path, t, rfl, rfl, rfl, rfl, ?_⟩
      simp only [trail, link, List.nil_append]
    | some u =>
      cases path with
      | nil =>
        obtain ⟨rfl, rfl⟩ := Prod.mk.inj (Option.some.inj found)
        refine ⟨[], i, [], t, rfl, rfl, rfl, rfl, ?_⟩
        simp only [trail, link, List.nil_append]
      | cons j path =>
        rw [lookup_of_some link (List.cons_ne_nil j path)] at found
        obtain ⟨p, i', q, v, split, length, reach, entry, last⟩ := ih found
        have step (rest : List ι) : trail child T t (i :: rest) = T t i :: trail child T u rest := by
          rw [trail, link]
        refine ⟨i :: p, i', q, v, ?_, length, ?_, entry, ?_⟩
        · rw [split, List.cons_append]
        · rw [descend, link]
          exact reach
        · rw [step, step, last, List.cons_append]

/-- An entry at which a path ends decides for every path that begins like it. -/
theorem lookup_of_take {t : α} {path path' : List ι} {e : E} {k : ℕ}
    (found : lookup child T t path = some (e, k)) (length : path'.length = path.length)
    (same : path'.take (path.length - k) = path.take (path.length - k)) :
    lookup child T t path' = some (e, k) ∧ k < path.length := by
  induction path generalizing t path' with
  | nil => cases found
  | cons i path ih =>
    obtain ⟨i', rest, rfl⟩ := List.exists_cons_of_length_eq_add_one length
    rw [List.length_cons, List.length_cons, Nat.add_right_cancel_iff] at length
    rw [List.length_cons] at same
    cases link : child (T t i) with
    | none =>
      rw [lookup_of_none path link, Option.some.injEq, Prod.mk.injEq] at found
      obtain ⟨rfl, rfl⟩ := found
      rw [Nat.add_sub_cancel_left, List.take_succ_cons, List.take_succ_cons, List.cons.injEq] at same
      rw [same.1, lookup_of_none rest link, length]
      exact ⟨rfl, Nat.lt_succ_self _⟩
    | some u =>
      cases path with
      | nil =>
        rw [lookup, Option.some.injEq, Prod.mk.injEq] at found
        obtain ⟨rfl, rfl⟩ := found
        rw [List.length_nil, List.length_eq_zero_iff] at length
        subst length
        rw [Nat.sub_zero, List.take_succ_cons, List.take_succ_cons, List.cons.injEq] at same
        rw [same.1]
        exact ⟨rfl, Nat.lt_succ_self _⟩
      | cons j path =>
        rw [lookup_of_some link (List.cons_ne_nil j path)] at found
        have bound := (ih found rfl rfl).2
        rw [Nat.sub_add_comm (Nat.le_of_lt bound), List.take_succ_cons, List.take_succ_cons,
          List.cons.injEq] at same
        have nonempty : rest ≠ [] := by
          rintro rfl
          cases length
        rw [same.1, lookup_of_some link nonempty]
        exact ⟨(ih found length same.2).1, Nat.lt_succ_of_lt bound⟩

section Congr

variable {root : α} {depth : ℕ}
  (agree : ∀ u j, Reached child T root depth u → T' u j = T u j)
include agree

/-- Entries of tables that are not reached do not matter. -/
private theorem reads_reached {path : List ι} (bound : path.length ≤ depth + 1) :
    ∀ p i q u, path = p ++ i :: q → descend child T root p = some u → T' u i = T u i := by
  intro p i q u split reach
  refine agree u i ⟨p, ?_, reach⟩
  rw [split, List.length_append, List.length_cons] at bound
  omega

theorem descend_of_agree {path : List ι} (bound : path.length ≤ depth + 1) :
    descend child T' root path = descend child T root path :=
  descend_congr (reads_reached agree bound)

theorem lookup_of_agree {path : List ι} (bound : path.length ≤ depth + 1) :
    lookup child T' root path = lookup child T root path :=
  lookup_congr (reads_reached agree bound)

theorem trail_of_agree {path : List ι} (bound : path.length ≤ depth + 1) :
    trail child T' root path = trail child T root path :=
  trail_congr (reads_reached agree bound)

theorem reached_of_agree {t : α} (reached : Reached child T' root depth t) : Reached child T root depth t := by
  obtain ⟨p, bound, reach⟩ := reached
  rw [descend_of_agree agree (by omega)] at reach
  exact ⟨p, bound, reach⟩

theorem TableTree.congr (tree : TableTree child T root depth) : TableTree child T' root depth := by
  intro p q t boundP boundQ reachP reachQ
  rw [descend_of_agree agree (by omega)] at reachP reachQ
  exact tree p q t boundP boundQ reachP reachQ

end Congr

section Write

variable {root t : α} {depth : ℕ} {p : List ι} {i : ι} (tree : TableTree child T root depth)
  (short : p.length ≤ depth) (reach : descend child T root p = some t)
  (agree : ∀ u j, Reached child T root depth u → ¬(u = t ∧ j = i) → T' u j = T u j)

include tree short reach agree

/-- A path that does not go through the written entry reads no changed entry. -/
private theorem reads_agree {path : List ι} (bound : path.length ≤ depth + 1) (apart : ¬p ++ [i] <+: path) :
    ∀ q j r u, path = q ++ j :: r → descend child T root q = some u → T' u j = T u j := by
  intro q j r u split reached
  have length : q.length ≤ depth := by
    rw [split, List.length_append, List.length_cons] at bound
    omega
  apply agree u j ⟨q, length, reached⟩
  rintro ⟨rfl, rfl⟩
  apply apart
  rw [split, tree p q u short length reach reached]
  exact ⟨r, by rw [List.append_assoc]; rfl⟩

theorem descend_of_apart {path : List ι} (bound : path.length ≤ depth + 1)
    (apart : ¬p ++ [i] <+: path) : descend child T' root path = descend child T root path :=
  descend_congr (reads_agree tree short reach agree bound apart)

theorem lookup_of_apart {path : List ι} (bound : path.length ≤ depth + 1) (apart : ¬p ++ [i] <+: path) :
    lookup child T' root path = lookup child T root path :=
  lookup_congr (reads_agree tree short reach agree bound apart)

theorem trail_of_apart {path : List ι} (bound : path.length ≤ depth + 1) (apart : ¬p ++ [i] <+: path) :
    trail child T' root path = trail child T root path :=
  trail_congr (reads_agree tree short reach agree bound apart)

/-- The written table is still reached on its path. -/
theorem descend_written : descend child T' root p = some t := by
  rw [descend_of_apart tree short reach agree (by omega), reach]
  intro longer
  have := longer.length_le
  rw [List.length_append, List.length_singleton] at this
  omega

/-- A path through the written entry continues with what was written. -/
theorem lookup_written (path : List ι) :
    lookup child T' root (p ++ i :: path) = lookup child T' t (i :: path) :=
  lookup_append (descend_written tree short reach agree) (List.cons_ne_nil _ _)

/-- The entries on a path through the written entry. -/
theorem trail_written (path : List ι) :
    trail child T' root (p ++ i :: path) = trail child T root p ++ trail child T' t (i :: path) := by
  rw [trail_append (descend_written tree short reach agree),
    trail_of_apart tree short reach agree (by omega)]
  intro longer
  have := longer.length_le
  rw [List.length_append, List.length_singleton] at this
  omega

/-- A write to an entry that was no link cuts nothing off. -/
theorem reached_of_none (none : child (T t i) = none) {w : α} (reached : Reached child T root depth w) :
    Reached child T' root depth w := by
  obtain ⟨path, bound, reached⟩ := reached
  refine ⟨path, bound, ?_⟩
  rw [descend_of_apart tree short reach agree (by omega), reached]
  rintro ⟨rest, rfl⟩
  rw [List.append_assoc, descend_append, reach, Option.bind_some, List.singleton_append, descend, none] at reached
  cases reached

variable (fresh : p.length < depth → ∀ u, child (T' t i) = some u →
  ¬Reached child T root depth u ∧ ∀ j, child (T' u j) = none)
include fresh

/-- After the write a table is reached as before, or it is the one linked to by the written entry. -/
theorem descend_cases {path : List ι} {w : α} (bound : path.length ≤ depth)
    (reached : descend child T' root path = some w) :
    descend child T root path = some w ∨
      p.length < depth ∧ path = p ++ [i] ∧ child (T' t i) = some w := by
  by_cases through : p ++ [i] <+: path
  · obtain ⟨rest, rfl⟩ := through
    have above : p.length < depth := by
      simp only [List.length_append, List.length_singleton] at bound
      omega
    rw [List.append_assoc, descend_append, descend_written tree short reach agree, Option.bind_some,
      List.singleton_append, descend] at reached
    cases link : child (T' t i) with
    | none =>
      rw [link] at reached
      cases reached
    | some u =>
      rw [link, Option.bind_some] at reached
      cases rest with
      | nil => exact Or.inr ⟨above, List.append_nil _, reached⟩
      | cons j rest =>
        rw [descend, (fresh above u link).2 j] at reached
        cases reached
  · rw [descend_of_apart tree short reach agree (by omega) through] at reached
    exact Or.inl reached

/-- The write keeps the tree. -/
theorem TableTree.write : TableTree child T' root depth := by
  intro first second w boundFirst boundSecond reachFirst reachSecond
  have oldFirst := descend_cases tree short reach agree fresh boundFirst reachFirst
  have oldSecond := descend_cases tree short reach agree fresh boundSecond reachSecond
  rcases oldFirst with oldFirst | ⟨above, pathFirst, link⟩
  · rcases oldSecond with oldSecond | ⟨above, _, link⟩
    · exact tree _ _ w boundFirst boundSecond oldFirst oldSecond
    · exact absurd ⟨first, boundFirst, oldFirst⟩ (fresh above w link).1
  · rcases oldSecond with oldSecond | ⟨_, pathSecond, _⟩
    · exact absurd ⟨second, boundSecond, oldSecond⟩ (fresh above w link).1
    · rw [pathFirst, pathSecond]

theorem reached_of_write {w : α} (reached : Reached child T' root depth w) :
    Reached child T root depth w ∨ p.length < depth ∧ child (T' t i) = some w := by
  obtain ⟨path, bound, reached⟩ := reached
  rcases descend_cases tree short reach agree fresh bound reached with old | ⟨above, _, link⟩
  · exact Or.inl ⟨path, bound, old⟩
  · exact Or.inr ⟨above, link⟩

/-- A write of an entry that is no link cuts the table off to which the entry linked before. -/
theorem not_reached_of_link (above : p.length < depth) {u : α} (link : child (T t i) = some u)
    (none : child (T' t i) = none) : ¬Reached child T' root depth u := by
  rintro ⟨path, bound, reached⟩
  have before : descend child T root (p ++ [i]) = some u := by
    rw [descend_append, reach, Option.bind_some, descend, link]
    rfl
  have longer : (p ++ [i]).length ≤ depth := by
    rw [List.length_append, List.length_singleton]
    omega
  rcases descend_cases tree short reach agree fresh bound reached with old | ⟨_, _, leads⟩
  · obtain rfl := tree _ _ u bound longer old before
    rw [descend_append, descend_written tree short reach agree, Option.bind_some, descend, none] at reached
    cases reached
  · rw [none] at leads
    cases leads

end Write

end RaryOS.Core
