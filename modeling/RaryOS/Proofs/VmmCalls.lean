import RaryOS.Proofs.VmmTree

/-! # Descending and mapping

The three mapping functions go down one, two or three levels with `vmm_next_table` and then write one
entry. The descent fails exactly when a large page lies on the way or a missing table cannot be had;
the entry that is written decides the translation of exactly one page.
-/

namespace RaryOS.Model

open RaryOS.Core

section Descent

variable {σ : Type*} (pmm : PageAllocator σ)

/-- Consecutive calls of `vmm_next_table`, up to the first `NULL`. -/
def vmmDescend (s : σ) (table : ℕ) : List (Fin 512) → ℕ × σ
  | [] => (table, s)
  | i :: rest =>
    let next := vmmNextTable pmm s table i
    if next.1 = 0 then (0, next.2) else vmmDescend next.2 next.1 rest

/-- Descend, and go on with the table at the end of the path. -/
def vmmThen {β : Type*} (giveUp : σ → β) (act : σ → ℕ → β) (s : σ) (table : ℕ) (path : List (Fin 512)) : β :=
  let down := vmmDescend pmm s table path
  if down.1 = 0 then giveUp down.2 else act down.2 down.1

section Then

variable {β : Type*} (giveUp : σ → β) (act : σ → ℕ → β) (s : σ) (table : ℕ)

theorem vmmThen_cons (i : Fin 512) (rest : List (Fin 512)) :
    vmmThen pmm giveUp act s table (i :: rest) =
      if (vmmNextTable pmm s table i).1 = 0 then giveUp (vmmNextTable pmm s table i).2
      else vmmThen pmm giveUp act (vmmNextTable pmm s table i).2 (vmmNextTable pmm s table i).1 rest := by
  by_cases null : (vmmNextTable pmm s table i).1 = 0
  · simp only [vmmThen, vmmDescend, if_pos null, if_true]
  · simp only [vmmThen, vmmDescend, if_neg null]

theorem vmmThen_one (i : Fin 512) :
    vmmThen pmm giveUp act s table [i] =
      let (table, s) := vmmNextTable pmm s table i
      if table = 0 then giveUp s else act s table := by
  rw [vmmThen_cons]
  obtain ⟨pdpt, s₁⟩ := vmmNextTable pmm s table i
  by_cases null : pdpt = 0
  · simp only [if_pos null]
  · rw [if_neg null, vmmThen, vmmDescend]

theorem vmmThen_two (i j : Fin 512) :
    vmmThen pmm giveUp act s table [i, j] =
      let (pdpt, s) := vmmNextTable pmm s table i
      if pdpt = 0 then giveUp s
      else
        let (pd, s) := vmmNextTable pmm s pdpt j
        if pd = 0 then giveUp s else act s pd := by
  rw [vmmThen_cons, vmmThen_one]

theorem vmmThen_three (i j k : Fin 512) :
    vmmThen pmm giveUp act s table [i, j, k] =
      let (pdpt, s) := vmmNextTable pmm s table i
      if pdpt = 0 then giveUp s
      else
        let (pd, s) := vmmNextTable pmm s pdpt j
        if pd = 0 then giveUp s
        else
          let (pt, s) := vmmNextTable pmm s pd k
          if pt = 0 then giveUp s else act s pt := by
  rw [vmmThen_cons, vmmThen_two]

end Then

/-- A large page lies on the path. -/
def HugeAbove (m : Memory) (table : ℕ) : List (Fin 512) → Prop
  | [] => False
  | i :: rest => entryPresent (tableEntries m table i) = true ∧
      (entryPs (tableEntries m table i) = true ∨
        HugeAbove m (tableEntries m table i &&& pteAddrMask) rest)

/-- A table is missing on the path, and `pmm_alloc_page` returns `NULL` when it is asked for it. -/
def OutOfTables (s : σ) (table : ℕ) : List (Fin 512) → Prop
  | [] => False
  | i :: rest =>
    entryPresent (tableEntries (pmm.mem s) table i) = false ∧ (pmm.allocPage s).1 = 0 ∨
      (vmmNextTable pmm s table i).1 ≠ 0 ∧
        OutOfTables (vmmNextTable pmm s table i).2 (vmmNextTable pmm s table i).1 rest

theorem not_hugeAbove_of_blank {m : Memory} {table : ℕ} (blank : ∀ j, tableEntries m table j = 0)
    (path : List (Fin 512)) : ¬HugeAbove m table path := by
  cases path with
  | nil => exact id
  | cons j rest =>
    rintro ⟨present, _⟩
    rw [blank] at present
    exact absurd present (by decide)

theorem vmmNextTable_present {s : σ} {table : ℕ} {i : Fin 512}
    (present : entryPresent (tableEntries (pmm.mem s) table i) = true) :
    vmmNextTable pmm s table i =
      (if entryPs (tableEntries (pmm.mem s) table i) = true then 0
        else tableEntries (pmm.mem s) table i &&& pteAddrMask, s) := by
  have bit : tableEntry (pmm.mem s) table i &&& pagePresent ≠ 0 := (entryPresent_iff _).mp present
  simp only [vmmNextTable, if_pos bit, entryPs_iff]
  change (if tableEntries (pmm.mem s) table i &&& pagePs ≠ 0 then _ else _) = _
  split <;> rfl

theorem vmmNextTable_link {s : σ} {table : ℕ} {i : Fin 512}
    (present : entryPresent (tableEntries (pmm.mem s) table i) = true)
    (link : entryPs (tableEntries (pmm.mem s) table i) = false) :
    vmmNextTable pmm s table i = (tableEntries (pmm.mem s) table i &&& pteAddrMask, s) := by
  rw [vmmNextTable_present pmm present, link, if_neg Bool.false_ne_true]

theorem vmmNextTable_huge {s : σ} {table : ℕ} {i : Fin 512}
    (present : entryPresent (tableEntries (pmm.mem s) table i) = true)
    (large : entryPs (tableEntries (pmm.mem s) table i) = true) :
    vmmNextTable pmm s table i = (0, s) := by
  rw [vmmNextTable_present pmm present, large, if_pos rfl]

theorem vmmNextTable_null {s : σ} {table : ℕ} {i : Fin 512}
    (absent : entryPresent (tableEntries (pmm.mem s) table i) = false) (null : (pmm.allocPage s).1 = 0) :
    vmmNextTable pmm s table i = (0, (pmm.allocPage s).2) := by
  have bit : ¬(tableEntry (pmm.mem s) table i &&& pagePresent ≠ 0) :=
    mt (entryPresent_iff _).mpr (by rw [Bool.not_eq_true]; exact absent)
  simp only [vmmNextTable, if_neg bit, if_pos null]

end Descent

section Spec

variable {σ : Type*} {pmm : PageAllocator σ} {Ready : σ → Set ℕ → Prop} {pml4 : ℕ}

/-- The descent changes no translation. It reaches the table at the end of the path, unless a large
page lies on the path or a table cannot be had. -/
theorem vmmDescend_spec (fresh : FreshPages pmm Ready) {path : List (Fin 512)} {s : σ} {used : Set ℕ}
    (tables : VmmTree pmm Ready pml4 s used) {p : List (Fin 512)} {t : ℕ}
    (short : p.length + path.length ≤ 3)
    (reach : descend entryChild (tableEntries (pmm.mem s)) pml4 p = some t) :
    ∃ used', Grows pmm Ready pml4 s (vmmDescend pmm s t path).2 used' ∧
      ((vmmDescend pmm s t path).1 = 0 ∧ (HugeAbove (pmm.mem s) t path ∨ OutOfTables pmm s t path) ∨
        (vmmDescend pmm s t path).1 ≠ 0 ∧
          ¬(HugeAbove (pmm.mem s) t path ∨ OutOfTables pmm s t path) ∧
          descend entryChild (tableEntries (pmm.mem (vmmDescend pmm s t path).2)) pml4 (p ++ path) =
            some (vmmDescend pmm s t path).1) := by
  induction path generalizing s used p t with
  | nil =>
    have page := (tables.isPage (by omega) reach).2
    refine ⟨used, .refl tables, Or.inr ⟨page.nonzero, ?_, ?_⟩⟩
    · rintro (huge | missing)
      · exact huge
      · exact missing
    · rw [List.append_nil]
      exact reach
  | cons i rest ih =>
    rw [List.length_cons] at short
    have longer : (p ++ [i]).length + rest.length ≤ 3 := by
      rw [List.length_append, List.length_singleton]
      omega
    have shift : p ++ i :: rest = p ++ [i] ++ rest := (List.append_assoc p [i] rest).symm
    cases present : entryPresent (tableEntries (pmm.mem s) t i) with
    | true =>
      cases ps : entryPs (tableEntries (pmm.mem s) t i) with
      | true =>
        have step := vmmNextTable_huge pmm present ps
        refine ⟨used, ?_, Or.inl ⟨?_, Or.inl ⟨present, Or.inl ps⟩⟩⟩
        · simp only [vmmDescend, step, if_true]
          exact .refl tables
        · simp only [vmmDescend, step, if_true]
      | false =>
        have step := vmmNextTable_link pmm present ps
        obtain ⟨next, nonzero⟩ := tables.link (by omega) reach present ps
        generalize address : tableEntries (pmm.mem s) t i &&& pteAddrMask = u at step next nonzero
        obtain ⟨used', grows, result⟩ := ih tables longer next
        have down : vmmDescend pmm s t (i :: rest) = vmmDescend pmm s u rest := by
          simp only [vmmDescend, step, if_neg nonzero]
        have huge : HugeAbove (pmm.mem s) t (i :: rest) ↔ HugeAbove (pmm.mem s) u rest := by
          simp only [HugeAbove, present, ps, true_and, Bool.false_eq_true, false_or, address]
        have missing : OutOfTables pmm s t (i :: rest) ↔ OutOfTables pmm s u rest := by
          simp only [OutOfTables, present, step, ne_eq, nonzero, not_false_eq_true, true_and,
            Bool.true_eq_false, false_and, false_or]
        rw [down, huge, missing, shift]
        exact ⟨used', grows, result⟩
    | false =>
      have notHuge : ¬HugeAbove (pmm.mem s) t (i :: rest) := by
        rintro ⟨here, _⟩
        rw [present] at here
        cases here
      by_cases null : (pmm.allocPage s).1 = 0
      · have step := vmmNextTable_null pmm present null
        refine ⟨used, ?_, Or.inl ⟨?_, Or.inr (Or.inl ⟨present, null⟩)⟩⟩
        · simp only [vmmDescend, step, if_true]
          exact tables.alloc_null fresh null
        · simp only [vmmDescend, step, if_true]
      · obtain ⟨s', step, new⟩ := tables.alloc_page fresh null (by omega) reach present
        obtain ⟨used', further, result⟩ := ih new.grows.tables longer new.leads
        have down : vmmDescend pmm s t (i :: rest) = vmmDescend pmm s' (pmm.allocPage s).1 rest := by
          simp only [vmmDescend, step, if_neg null]
        have missing : OutOfTables pmm s t (i :: rest) ↔ OutOfTables pmm s' (pmm.allocPage s).1 rest := by
          simp only [OutOfTables, present, step, ne_eq, null, not_false_eq_true, true_and, false_or]
        have huge := iff_of_false notHuge (not_hugeAbove_of_blank new.blank rest)
        rw [down, huge, missing, shift]
        exact ⟨used', new.grows.trans further, result⟩

/-- An entry that maps a page, as a write to the tables. -/
theorem VmmTree.entry_write {s : σ} {used : Set ℕ} (tables : VmmTree pmm Ready pml4 s used)
    {p : List (Fin 512)} {t : ℕ} (i : Fin 512) {entry : ℕ} (short : p.length ≤ 3)
    (reach : descend entryChild (tableEntries (pmm.mem s)) pml4 p = some t) (small : entry < 2 ^ 64)
    (leaf : p.length < 3 → entryPs entry = true) :
    EntryWrite (pmm.mem s) (setTableEntry (pmm.mem s) t i entry) pml4 p t i entry where
  short := short
  reach := reach
  written := tableEntries_set_same (pmm.mem s) t i small
  others w j reached other :=
    tableEntries_set_other (tables.isPage short reach).2 (tables.pages w (tables.reached w reached)) other entry
  fresh above u leads := by
    rw [entryChild_of_ps (leaf above)] at leads
    cases leads

/-- Writing an entry that maps a page: the tree stays, addresses on other paths stay mapped as they are,
and on this path the entry maps every address. -/
theorem VmmTree.write_leaf (fresh : FreshPages pmm Ready) {s : σ} {used : Set ℕ}
    (tables : VmmTree pmm Ready pml4 s used) {p : List (Fin 512)} {t : ℕ} (i : Fin 512) {entry : ℕ}
    (short : p.length ≤ 3) (reach : descend entryChild (tableEntries (pmm.mem s)) pml4 p = some t)
    (small : entry < 2 ^ 64) (present : entryPresent entry = true)
    (leaf : p.length < 3 → entryPs entry = true) :
    VmmTree pmm Ready pml4 (pmm.withMem s (setTableEntry (pmm.mem s) t i entry)) used ∧
      (∀ virt, ¬p ++ [i] <+: pathOf virt →
        leafEntry (setTableEntry (pmm.mem s) t i entry) pml4 virt = leafEntry (pmm.mem s) pml4 virt) ∧
      (∀ virt rest, pathOf virt = p ++ i :: rest →
        leafEntry (setTableEntry (pmm.mem s) t i entry) pml4 virt = some (entry, rest.length)) ∧
      (∀ w, Reached entryChild (tableEntries (setTableEntry (pmm.mem s) t i entry)) pml4 3 w →
        Reached entryChild (tableEntries (pmm.mem s)) pml4 3 w) ∧
      ∀ path, path.length ≤ 4 → ¬p ++ [i] <+: path →
        tableMissing (setTableEntry (pmm.mem s) t i entry) pml4 path = tableMissing (pmm.mem s) pml4 path := by
  have write := tables.entry_write i short reach small leaf
  have memberT := (tables.isPage short reach).1
  have written := write.written
  have agree := write.others
  have fresh' := write.blank
  have old : ∀ w, Reached entryChild (tableEntries (setTableEntry (pmm.mem s) t i entry)) pml4 3 w →
      Reached entryChild (tableEntries (pmm.mem s)) pml4 3 w := by
    intro w reached
    rcases reached_of_write tables.tree short reach agree fresh' reached with old | ⟨above, leads⟩
    · exact old
    · rw [written, entryChild_of_ps (leaf above)] at leads
      cases leads
  refine ⟨⟨?_, ?_, ?_, tables.pages⟩, fun virt apart => ?_, fun virt rest split => ?_, old,
    fun path bound apart => ?_⟩
  · refine fresh.write s used _ tables.ready fun query away => setTableEntry_apply _ _ _ (away t memberT)
  · rw [pmm.mem_withMem]
    exact tables.tree.write short reach agree fresh'
  · intro w reached
    rw [pmm.mem_withMem] at reached
    exact tables.reached w (old w reached)
  · exact leafEntry_of_lookup (lookup_of_apart tables.tree short reach agree (le_refl 4) apart)
  · refine leafEntry_of_present ?_ present
    rw [split, lookup_written tables.tree short reach agree]
    cases rest with
    | nil => rw [lookup, written, List.length_nil]
    | cons j rest =>
      have length := congrArg List.length split
      have four : (pathOf virt).length = 4 := rfl
      rw [List.length_append, List.length_cons, List.length_cons, four] at length
      rw [lookup_of_none, written]
      rw [written]
      exact entryChild_of_ps (leaf (by omega))
  · exact tableMissing_of_lookup (lookup_of_apart tables.tree short reach agree bound apart)

end Spec

end RaryOS.Model
