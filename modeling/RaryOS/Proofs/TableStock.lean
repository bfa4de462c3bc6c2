import RaryOS.Proofs.VmmCalls

/-! # Enough frames for the missing tables

A call of `vmm_next_table` that allocates takes one frame and links one table, so the number of tables
that are missing on given paths never outgrows the stock of frames, if it does not at the start. The
descents along these paths then never run out of tables.
-/

namespace RaryOS.Model

open RaryOS.Core

variable {σ : Type*} {pmm : PageAllocator σ} {Ready : σ → Set ℕ → Prop} {stock : σ → ℕ} {Low : ℕ → Prop}
  {pml4 : ℕ} {s : σ} {used : Set ℕ}

/-- What a stock of frames means: while there is one, `pmm_alloc_page` returns a page, and a page of the
right kind; it takes one frame at most; and writes to used pages take none. -/
structure Stocked (pmm : PageAllocator σ) (Ready : σ → Set ℕ → Prop) (stock : σ → ℕ) (Low : ℕ → Prop) :
    Prop where
  found : ∀ s used, Ready s used → stock s ≠ 0 → (pmm.allocPage s).1 ≠ 0 ∧ Low (pmm.allocPage s).1
  takes : ∀ s used, Ready s used → stock s ≤ stock (pmm.allocPage s).2 + 1
  write : ∀ s used m, Ready s used →
    (∀ query, (∀ t ∈ used, query < t ∨ t + 4096 ≤ query) → m query = pmm.mem s query) →
      stock (pmm.withMem s m) = stock s

/-- The paths on which a table is missing. -/
def missingTables (m : Memory) (pml4 : ℕ) (paths : Finset (List (Fin 512))) : Finset (List (Fin 512)) :=
  paths.filter fun path => tableMissing m pml4 path = true

/-- The stock is enough for the tables that are missing. -/
def Enough (pmm : PageAllocator σ) (stock : σ → ℕ) (pml4 : ℕ) (paths : Finset (List (Fin 512))) (s : σ) :
    Prop :=
  (missingTables (pmm.mem s) pml4 paths).card ≤ stock s

section Stock

variable (fresh : FreshPages pmm Ready) (stocked : Stocked pmm Ready stock Low)
  {paths : Finset (List (Fin 512))} (bounded : ∀ path ∈ paths, path.length ≤ 4)
include fresh stocked bounded

/-- A new table was missing before and is missing no more. -/
theorem NewTable.enough {path : List (Fin 512)} {s' : σ} (tables : VmmTree pmm Ready pml4 s used)
    (new : NewTable pmm Ready pml4 s used path (pmm.allocPage s) s') (found : (pmm.allocPage s).1 ≠ 0)
    (member : path ∈ paths) (missing : tableMissing (pmm.mem s) pml4 path = true)
    (enough : Enough pmm stock pml4 paths s) : Enough pmm stock pml4 paths s' := by
  have fewer : missingTables (pmm.mem s') pml4 paths ⊂ missingTables (pmm.mem s) pml4 paths := by
    refine (Finset.ssubset_iff_of_subset fun other inside => ?_).mpr ⟨path, ?_, ?_⟩
    · obtain ⟨inside, missing⟩ := Finset.mem_filter.mp inside
      exact Finset.mem_filter.mpr ⟨inside, new.missing other (bounded other inside) missing⟩
    · exact Finset.mem_filter.mpr ⟨member, missing⟩
    · intro inside
      have still := (Finset.mem_filter.mp inside).2
      rw [new.found] at still
      cases still
  have count := Finset.card_lt_card fewer
  have takes := stocked.takes s used tables.ready
  obtain ⟨m, writes, agree⟩ := new.writes
  have kept := stocked.write _ _ m (fresh.page s used tables.ready found).2.2 agree
  rw [← writes] at kept
  rw [Enough] at enough ⊢
  omega

/-- A descent along paths with enough frames does not run out of tables, and the tables it adds are of
the right kind. -/
theorem vmmDescend_enough {path : List (Fin 512)} (tables : VmmTree pmm Ready pml4 s used)
    {p : List (Fin 512)} {t : ℕ} (short : p.length + path.length ≤ 3)
    (reach : descend entryChild (tableEntries (pmm.mem s)) pml4 p = some t)
    (covers : ∀ q, q ≠ [] → q <+: path → p ++ q ∈ paths) (enough : Enough pmm stock pml4 paths s) :
    ¬OutOfTables pmm s t path ∧ Enough pmm stock pml4 paths (vmmDescend pmm s t path).2 ∧
      ∀ w, Reached entryChild (tableEntries (pmm.mem (vmmDescend pmm s t path).2)) pml4 3 w →
        Reached entryChild (tableEntries (pmm.mem s)) pml4 3 w ∨ Low w := by
  induction path generalizing s used p t with
  | nil => exact ⟨id, enough, fun w reached => Or.inl reached⟩
  | cons i rest ih =>
    rw [List.length_cons] at short
    have longer : (p ++ [i]).length + rest.length ≤ 3 := by
      rw [List.length_append, List.length_singleton]
      omega
    have coversRest : ∀ q, q ≠ [] → q <+: rest → p ++ [i] ++ q ∈ paths := by
      intro q nonempty inside
      rw [List.append_assoc]
      exact covers _ (List.cons_ne_nil i q) (List.cons_prefix_cons.mpr ⟨rfl, inside⟩)
    cases present : entryPresent (tableEntries (pmm.mem s) t i) with
    | true =>
      cases ps : entryPs (tableEntries (pmm.mem s) t i) with
      | true =>
        have step := vmmNextTable_huge pmm present ps
        simp only [vmmDescend, OutOfTables, step, present, if_true, Bool.true_eq_false, false_and, ne_eq,
          not_true_eq_false, or_self, not_false_eq_true, true_and]
        exact ⟨enough, fun w reached => Or.inl reached⟩
      | false =>
        have step := vmmNextTable_link pmm present ps
        obtain ⟨next, nonzero⟩ := tables.link (by omega) reach present ps
        generalize tableEntries (pmm.mem s) t i &&& pteAddrMask = u at step next nonzero
        simp only [vmmDescend, OutOfTables, step, present, nonzero, if_false, Bool.true_eq_false, false_and,
          ne_eq, not_false_eq_true, true_and, false_or]
        exact ih tables longer next coversRest enough
    | false =>
      have found : lookup entryChild (tableEntries (pmm.mem s)) pml4 (p ++ [i]) =
          some (tableEntries (pmm.mem s) t i, 0) := by
        rw [lookup_append reach (List.cons_ne_nil _ _), lookup]
      have missing : tableMissing (pmm.mem s) pml4 (p ++ [i]) = true := by
        rw [tableMissing_of_found found, present]
        rfl
      have member : p ++ [i] ∈ paths :=
        covers [i] (List.cons_ne_nil _ _) (List.cons_prefix_cons.mpr ⟨rfl, List.nil_prefix⟩)
      have some_missing : 0 < (missingTables (pmm.mem s) pml4 paths).card :=
        Finset.card_pos.mpr ⟨_, Finset.mem_filter.mpr ⟨member, missing⟩⟩
      obtain ⟨nonzero, low⟩ := stocked.found s used tables.ready (by rw [Enough] at enough; omega)
      obtain ⟨s', step, new⟩ := tables.alloc_page fresh nonzero (by omega) reach present
      obtain ⟨supplied, enough', reached'⟩ := ih new.grows.tables longer new.leads coversRest
        (new.enough fresh stocked bounded tables nonzero member missing enough)
      simp only [vmmDescend, OutOfTables, step, present, nonzero, if_false, and_false, false_or, ne_eq,
        not_false_eq_true, true_and]
      refine ⟨supplied, enough', fun w reached => ?_⟩
      rcases reached' w reached with grown | other
      · rcases new.reached w grown with old | rfl
        · exact Or.inl old
        · exact Or.inr low
      · exact Or.inr other

end Stock

/-! ## Large pages on the path -/

/-- Below a large page nothing is looked up or allocated. -/
theorem vmmDescend_of_hugeAbove {t : ℕ} {path : List (Fin 512)} (huge : HugeAbove (pmm.mem s) t path) :
    vmmDescend pmm s t path = (0, s) := by
  induction path generalizing t with
  | nil => exact huge.elim
  | cons i rest ih =>
    obtain ⟨present, below⟩ := huge
    cases ps : entryPs (tableEntries (pmm.mem s) t i) with
    | true =>
      have step := vmmNextTable_huge pmm present ps
      simp only [vmmDescend, step, if_true]
    | false =>
      have step := vmmNextTable_link pmm present ps
      rw [ps] at below
      by_cases null : tableEntries (pmm.mem s) t i &&& pteAddrMask = 0
      · simp only [vmmDescend, step, null, if_true]
      · simp only [vmmDescend, step, null, if_false]
        exact ih (below.resolve_left (by decide))

/-- A large page lies on a path when the lookup of a longer one ends above its last entry. -/
theorem hugeAbove_iff_lookup (m : Memory) (t : ℕ) (path : List (Fin 512)) (last : Fin 512) :
    HugeAbove m t path ↔ ∃ entry below,
      lookup entryChild (tableEntries m) t (path ++ [last]) = some (entry, below + 1) ∧
        entryPresent entry = true := by
  induction path generalizing t with
  | nil => simp [HugeAbove, lookup]
  | cons i rest ih =>
    have nonempty : rest ++ [last] ≠ [] := List.append_ne_nil_of_right_ne_nil _ (List.cons_ne_nil _ _)
    cases present : entryPresent (tableEntries m t i) with
    | false =>
      rw [List.cons_append, lookup_of_none _ (entryChild_of_absent present)]
      simp [HugeAbove, present]
    | true =>
      cases ps : entryPs (tableEntries m t i) with
      | true =>
        rw [List.cons_append, lookup_of_none _ (entryChild_of_ps ps)]
        simp [HugeAbove, present, ps]
      | false =>
        rw [List.cons_append, lookup_of_some (entryChild_eq_some.mpr ⟨present, ps, rfl⟩) nonempty, ← ih]
        simp [HugeAbove, present, ps]

theorem hugeAbove_iff_leafEntry (m : Memory) (pml4 virt : ℕ) :
    HugeAbove m pml4 ((pathOf virt).take 3) ↔
      ∃ entry below, leafEntry m pml4 virt = some (entry, below + 1) := by
  have split : (pathOf virt).take 3 ++ [Fin.ofNat 512 (virt / 2 ^ 12)] = pathOf virt := rfl
  rw [hugeAbove_iff_lookup m pml4 _ (Fin.ofNat 512 (virt / 2 ^ 12)), split]
  simp only [leafEntry, Option.filter_eq_some_iff]

end RaryOS.Model
