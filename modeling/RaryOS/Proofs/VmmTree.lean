import RaryOS.Proofs.VmmEntries

/-! # The tree of page tables

The invariant of the page tables is that no table is reached on two paths and that every table lies in
a page the page allocator counts as used. `vmm_next_table` keeps it, and with it every translation: a
new table is empty, so what was not present stays so. Writing an entry that maps a page changes the
translations through that entry only.
-/

namespace RaryOS.Model

open RaryOS.Core

/-- A page that can hold a table. -/
structure IsPage (page : ℕ) : Prop where
  nonzero : page ≠ 0
  aligned : page % 4096 = 0
  bound : page < 2 ^ 52

variable {σ : Type*} {pmm : PageAllocator σ} {Ready : σ → Set ℕ → Prop}

/-- What the page tables rely on: with the pages `used` in use, `pmm_alloc_page` returns `NULL` or a
page that is not, and it leaves the used pages alone; writing to used pages is no business of its. -/
structure FreshPages (pmm : PageAllocator σ) (Ready : σ → Set ℕ → Prop) : Prop where
  null : ∀ s used, Ready s used → (pmm.allocPage s).1 = 0 → Ready (pmm.allocPage s).2 used
  page : ∀ s used, Ready s used → (pmm.allocPage s).1 ≠ 0 →
    IsPage (pmm.allocPage s).1 ∧ (pmm.allocPage s).1 ∉ used ∧
      Ready (pmm.allocPage s).2 (insert (pmm.allocPage s).1 used)
  keeps : ∀ s used, Ready s used → ∀ t ∈ used,
    Memory.Agree (pmm.mem s) (pmm.mem (pmm.allocPage s).2) t 4096
  write : ∀ s used m, Ready s used →
    (∀ query, (∀ t ∈ used, query < t ∨ t + 4096 ≤ query) → m query = pmm.mem s query) →
      Ready (pmm.withMem s m) used

/-- The page tables form a tree in used pages. -/
structure VmmTree (pmm : PageAllocator σ) (Ready : σ → Set ℕ → Prop) (pml4 : ℕ) (s : σ)
    (used : Set ℕ) : Prop where
  ready : Ready s used
  tree : TableTree entryChild (tableEntries (pmm.mem s)) pml4 3
  reached : ∀ t, Reached entryChild (tableEntries (pmm.mem s)) pml4 3 t → t ∈ used
  pages : ∀ t ∈ used, IsPage t

/-! ## Single entries -/

section Entries

variable {m m' : Memory} {t u : ℕ} {i j : Fin 512}

theorem tableEntries_congr (agree : Memory.Agree m m' u 4096) (j : Fin 512) :
    tableEntries m' u j = tableEntries m u j := by
  have small := j.isLt
  exact Memory.load_congr fun query lower upper => agree query (by omega) (by omega)

theorem tableEntries_set_same (m : Memory) (t : ℕ) (i : Fin 512) {entry : ℕ} (small : entry < 2 ^ 64) :
    tableEntries (setTableEntry m t i entry) t i = entry :=
  (m.load64_store64_same _ _).trans (Nat.mod_eq_of_lt small)

/-- Pages of tables are apart, and so are the entries of one table. -/
theorem tableEntries_set_other (pageT : IsPage t) (pageU : IsPage u) (other : ¬(u = t ∧ j = i))
    (entry : ℕ) : tableEntries (setTableEntry m t i entry) u j = tableEntries m u j := by
  have alignedT := pageT.aligned
  have alignedU := pageU.aligned
  have smallI := i.isLt
  have smallJ := j.isLt
  apply m.load_store_of_disjoint entry
  by_cases same : u = t
  · have apart : (j : ℕ) ≠ i := fun equal => other ⟨same, Fin.ext equal⟩
    omega
  · omega

theorem tableEntries_fill_same (m : Memory) (u : ℕ) (j : Fin 512) :
    tableEntries (m.fill u 4096 0) u j = 0 := by
  have small := j.isLt
  exact m.load_fill_zero (by omega) (by omega)

theorem agree_fill (m : Memory) (pageT : IsPage t) (pageU : IsPage u) (apart : t ≠ u) :
    Memory.Agree m (m.fill u 4096 0) t 4096 := by
  have alignedT := pageT.aligned
  have alignedU := pageU.aligned
  intro query lower upper
  exact m.fill_apply_of_outside 0 (by omega)

theorem setTableEntry_apply (m : Memory) {query : ℕ} (i : Fin 512) (entry : ℕ)
    (outside : query < t ∨ t + 4096 ≤ query) : setTableEntry m t i entry query = m query := by
  have small := i.isLt
  exact m.store_apply_of_outside entry (by omega)

theorem entryChild_eq_some {entry : ℕ} :
    entryChild entry = some u ↔
      entryPresent entry = true ∧ entryPs entry = false ∧ entry &&& pteAddrMask = u := by
  rw [entryChild]
  cases entryPresent entry <;> cases entryPs entry <;> simp

theorem entryChild_of_absent {entry : ℕ} (absent : entryPresent entry = false) : entryChild entry = none := by
  rw [entryChild, absent]
  rfl

theorem entryChild_of_ps {entry : ℕ} (ps : entryPs entry = true) : entryChild entry = none := by
  rw [entryChild, ps, Bool.not_true, Bool.and_false]
  rfl

theorem entryChild_zero : entryChild 0 = none := by decide

end Entries

/-! ## A step down the tables -/

section Step

variable {pml4 : ℕ} {s : σ} {used : Set ℕ}

theorem VmmTree.isPage (tables : VmmTree pmm Ready pml4 s used) {p : List (Fin 512)} {t : ℕ}
    (short : p.length ≤ 3) (reach : descend entryChild (tableEntries (pmm.mem s)) pml4 p = some t) :
    t ∈ used ∧ IsPage t := by
  have member := tables.reached t ⟨p, short, reach⟩
  exact ⟨member, tables.pages t member⟩

/-- A present entry that is no page leads to a table. -/
theorem VmmTree.link (tables : VmmTree pmm Ready pml4 s used) {p : List (Fin 512)} {t : ℕ} {i : Fin 512}
    (inside : p.length < 3) (reach : descend entryChild (tableEntries (pmm.mem s)) pml4 p = some t)
    (present : entryPresent (tableEntries (pmm.mem s) t i) = true)
    (ps : entryPs (tableEntries (pmm.mem s) t i) = false) :
    descend entryChild (tableEntries (pmm.mem s)) pml4 (p ++ [i]) =
        some (tableEntries (pmm.mem s) t i &&& pteAddrMask) ∧
      tableEntries (pmm.mem s) t i &&& pteAddrMask ≠ 0 := by
  have next : descend entryChild (tableEntries (pmm.mem s)) pml4 (p ++ [i]) =
      some (tableEntries (pmm.mem s) t i &&& pteAddrMask) := by
    rw [descend_append, reach, Option.bind_some, descend, entryChild_eq_some.mpr ⟨present, ps, rfl⟩]
    rfl
  refine ⟨next, (tables.isPage ?_ next).2.nonzero⟩
  rw [List.length_append, List.length_singleton]
  omega

/-- More tables, the same translations. -/
structure Grows (pmm : PageAllocator σ) (Ready : σ → Set ℕ → Prop) (pml4 : ℕ) (s t : σ)
    (used : Set ℕ) : Prop where
  tables : VmmTree pmm Ready pml4 t used
  same : ∀ virt, leafEntry (pmm.mem t) pml4 virt = leafEntry (pmm.mem s) pml4 virt

theorem Grows.refl (tables : VmmTree pmm Ready pml4 s used) : Grows pmm Ready pml4 s s used :=
  ⟨tables, fun _ => rfl⟩

theorem Grows.trans {t u : σ} {used' : Set ℕ} (first : Grows pmm Ready pml4 s t used)
    (second : Grows pmm Ready pml4 t u used') : Grows pmm Ready pml4 s u used' :=
  ⟨second.tables, fun virt => (second.same virt).trans (first.same virt)⟩

/-- A failed allocation changes no table. -/
theorem VmmTree.alloc_null (fresh : FreshPages pmm Ready) (tables : VmmTree pmm Ready pml4 s used)
    (null : (pmm.allocPage s).1 = 0) : Grows pmm Ready pml4 s (pmm.allocPage s).2 used := by
  have agree : ∀ u j, Reached entryChild (tableEntries (pmm.mem s)) pml4 3 u →
      tableEntries (pmm.mem (pmm.allocPage s).2) u j = tableEntries (pmm.mem s) u j :=
    fun u j reached => tableEntries_congr (fresh.keeps s used tables.ready u (tables.reached u reached)) j
  refine ⟨⟨fresh.null s used tables.ready null, tables.tree.congr agree,
    fun t reached => tables.reached t (reached_of_agree agree reached), tables.pages⟩, fun virt => ?_⟩
  exact leafEntry_of_lookup (lookup_of_agree agree (le_refl 4))

/-- One entry of a reached table is written; a link leads to an empty table that was not reached. -/
structure EntryWrite (m m' : Memory) (pml4 : ℕ) (p : List (Fin 512)) (t : ℕ) (i : Fin 512)
    (entry : ℕ) : Prop where
  short : p.length ≤ 3
  reach : descend entryChild (tableEntries m) pml4 p = some t
  written : tableEntries m' t i = entry
  others : ∀ w j, Reached entryChild (tableEntries m) pml4 3 w → ¬(w = t ∧ j = i) →
    tableEntries m' w j = tableEntries m w j
  fresh : p.length < 3 → ∀ u, entryChild entry = some u →
    ¬Reached entryChild (tableEntries m) pml4 3 u ∧ ∀ j, tableEntries m' u j = 0

namespace EntryWrite

variable {m m' : Memory} {p : List (Fin 512)} {t : ℕ} {i : Fin 512} {entry : ℕ}

/-- The same about the entry in memory. -/
theorem blank (write : EntryWrite m m' pml4 p t i entry) : p.length < 3 → ∀ u,
    entryChild (tableEntries m' t i) = some u →
      ¬Reached entryChild (tableEntries m) pml4 3 u ∧ ∀ j, entryChild (tableEntries m' u j) = none := by
  intro above u link
  rw [write.written] at link
  obtain ⟨unreached, zero⟩ := write.fresh above u link
  refine ⟨unreached, fun j => ?_⟩
  rw [zero]
  exact entryChild_zero

end EntryWrite

/-- Linking an empty table where there was none: the tree grows by it, and no translation changes. -/
theorem link_blank {m m' : Memory} {p : List (Fin 512)} {t u entry : ℕ} {i : Fin 512}
    (tree : TableTree entryChild (tableEntries m) pml4 3) (write : EntryWrite m m' pml4 p t i entry)
    (short : p.length ≤ 2) (absent : entryPresent (tableEntries m t i) = false)
    (link : entryChild entry = some u) :
    TableTree entryChild (tableEntries m') pml4 3 ∧
      (∀ w, Reached entryChild (tableEntries m') pml4 3 w →
        Reached entryChild (tableEntries m) pml4 3 w ∨ w = u) ∧
      descend entryChild (tableEntries m') pml4 (p ++ [i]) = some u ∧
      (∀ virt, leafEntry m' pml4 virt = leafEntry m pml4 virt) ∧
      (∀ path, path.length ≤ 4 → tableMissing m' pml4 path = true → tableMissing m pml4 path = true) ∧
      tableMissing m' pml4 (p ++ [i]) = false := by
  have below := write.short
  have reach := write.reach
  have agree := write.others
  have fresh := write.blank
  have blank := (write.fresh (by omega) u link).2
  rw [← write.written] at link
  have noChild (j : Fin 512) : entryChild (tableEntries m' u j) = none := by
    rw [blank]
    exact entryChild_zero
  -- before, every path through the entry ends at it
  have before (rest : List (Fin 512)) : lookup entryChild (tableEntries m) pml4 (p ++ i :: rest) =
      some (tableEntries m t i, rest.length) := by
    rw [lookup_append reach (List.cons_ne_nil _ _), lookup_of_none _ (entryChild_of_absent absent)]
  refine ⟨tree.write below reach agree fresh, fun w reached => ?_, ?_, fun virt => ?_,
    fun path bound missing => ?_, ?_⟩
  · exact (reached_of_write tree below reach agree fresh reached).imp_right fun leads =>
      Option.some.inj (leads.2.symm.trans link)
  · rw [descend_append, descend_written tree below reach agree, Option.bind_some, descend, link]
    rfl
  · by_cases through : p ++ [i] <+: pathOf virt
    · obtain ⟨rest, split⟩ := through
      have length := congrArg List.length split
      have four : (pathOf virt).length = 4 := rfl
      rw [List.append_assoc] at split
      rw [List.length_append, List.length_append, List.length_singleton, four] at length
      cases rest with
      | nil =>
        rw [List.length_nil] at length
        omega
      | cons j rest =>
        -- no entry maps the address, before or after
        have before := before (j :: rest)
        rw [← List.singleton_append, split] at before
        have after : lookup entryChild (tableEntries m') pml4 (pathOf virt) = some (0, rest.length) := by
          rw [← split, List.singleton_append, lookup_written tree below reach agree,
            lookup_of_some link (List.cons_ne_nil _ _), lookup_of_none rest (noChild j), blank]
        rw [leafEntry_of_absent before absent, leafEntry_of_absent after (by decide)]
    · exact leafEntry_of_lookup (lookup_of_apart tree below reach agree (le_refl 4) through)
  · by_cases through : p ++ [i] <+: path
    · obtain ⟨rest, rfl⟩ := through
      rw [List.append_assoc, List.singleton_append, tableMissing_of_found (before rest), absent]
      rfl
    · rw [← missing, tableMissing_of_lookup (lookup_of_apart tree below reach agree bound through)]
  · have written := lookup_written tree below reach agree []
    rw [lookup] at written
    rw [tableMissing_of_found written, (entryChild_eq_some.mp link).1]
    rfl

/-- The allocated page has been cleared and linked at the end of a path, and nothing else has changed. -/
structure NewTable (pmm : PageAllocator σ) (Ready : σ → Set ℕ → Prop) (pml4 : ℕ) (s : σ)
    (used : Set ℕ) (path : List (Fin 512)) (allocated : ℕ × σ) (s' : σ) : Prop where
  grows : Grows pmm Ready pml4 s s' (insert allocated.1 used)
  leads : descend entryChild (tableEntries (pmm.mem s')) pml4 path = some allocated.1
  blank : ∀ j, tableEntries (pmm.mem s') allocated.1 j = 0
  reached : ∀ w, Reached entryChild (tableEntries (pmm.mem s')) pml4 3 w →
    Reached entryChild (tableEntries (pmm.mem s)) pml4 3 w ∨ w = allocated.1
  missing : ∀ other, other.length ≤ 4 → tableMissing (pmm.mem s') pml4 other = true →
    tableMissing (pmm.mem s) pml4 other = true
  found : tableMissing (pmm.mem s') pml4 path = false
  writes : ∃ m, s' = pmm.withMem allocated.2 m ∧
    ∀ query, (∀ t ∈ insert allocated.1 used, query < t ∨ t + 4096 ≤ query) →
      m query = pmm.mem allocated.2 query

/-- The entry that links a new table. -/
def tableLink (table : ℕ) : ℕ := (table &&& pteAddrMask) ||| pagePresent ||| pageWritable ||| pageUser

theorem tableLink_child {u : ℕ} (page : IsPage u) :
    tableLink u < 2 ^ 64 ∧ entryChild (tableLink u) = some u := by
  obtain ⟨small, present, ps, address⟩ := tableLink_fields page.aligned page.bound
  exact ⟨small, entryChild_eq_some.mpr ⟨present, ps, address⟩⟩

/-- A new table for an entry that is not present, as a write to the tables. -/
theorem VmmTree.new_table (fresh : FreshPages pmm Ready) (tables : VmmTree pmm Ready pml4 s used)
    (found : (pmm.allocPage s).1 ≠ 0) {p : List (Fin 512)} {t : ℕ} {i : Fin 512} (short : p.length ≤ 2)
    (reach : descend entryChild (tableEntries (pmm.mem s)) pml4 p = some t)
    (absent : entryPresent (tableEntries (pmm.mem s) t i) = false) :
    ∃ m, vmmNextTable pmm s t i = ((pmm.allocPage s).1, pmm.withMem (pmm.allocPage s).2 m) ∧
      EntryWrite (pmm.mem s) m pml4 p t i (tableLink (pmm.allocPage s).1) ∧
      (∀ j, tableEntries m (pmm.allocPage s).1 j = 0) ∧
      ∀ query, (∀ w ∈ insert (pmm.allocPage s).1 used, query < w ∨ w + 4096 ≤ query) →
        m query = pmm.mem (pmm.allocPage s).2 query := by
  obtain ⟨page, unused, ready⟩ := fresh.page s used tables.ready found
  have keeps := fresh.keeps s used tables.ready
  obtain ⟨memberT, pageT⟩ := tables.isPage (by omega) reach
  obtain ⟨small, child⟩ := tableLink_child page
  have notPresent : ¬(tableEntry (pmm.mem s) t i &&& pagePresent ≠ 0) :=
    mt (entryPresent_iff _).mpr (by rw [Bool.not_eq_true]; exact absent)
  have step : vmmNextTable pmm s t i = ((pmm.allocPage s).1, pmm.withMem (pmm.allocPage s).2
      (setTableEntry ((pmm.mem (pmm.allocPage s).2).fill (pmm.allocPage s).1 4096 0) t i
        (tableLink (pmm.allocPage s).1))) := by
    simp only [vmmNextTable, if_neg notPresent, if_neg found]
    rfl
  generalize pmm.allocPage s = allocated at *
  obtain ⟨u, s₁⟩ := allocated
  simp only at page unused ready keeps small child step found ⊢
  have apart : ∀ w ∈ used, w ≠ u := fun w member same => unused (same ▸ member)
  have blank (j : Fin 512) :
      tableEntries (setTableEntry ((pmm.mem s₁).fill u 4096 0) t i (tableLink u)) u j = 0 := by
    rw [tableEntries_set_other pageT page fun same => apart t memberT same.1.symm]
    exact tableEntries_fill_same _ u j
  refine ⟨_, step, ⟨by omega, reach, ?_, fun w j reached other => ?_, fun _ v link => ?_⟩, blank,
    fun query away => ?_⟩
  · exact tableEntries_set_same _ t i small
  · have member := tables.reached w reached
    rw [tableEntries_set_other pageT (tables.pages w member) other,
      tableEntries_congr (agree_fill _ (tables.pages w member) page (apart w member)),
      tableEntries_congr (keeps w member)]
  · obtain rfl := Option.some.inj (child.symm.trans link)
    exact ⟨fun reached => unused (tables.reached u reached), blank⟩
  · rw [setTableEntry_apply _ _ _ (away t (Set.mem_insert_of_mem _ memberT))]
    exact Memory.fill_apply_of_outside _ 0 (away u (Set.mem_insert _ _))

/-- A new table for an entry that is not present. -/
theorem VmmTree.alloc_page (fresh : FreshPages pmm Ready) (tables : VmmTree pmm Ready pml4 s used)
    (found : (pmm.allocPage s).1 ≠ 0) {p : List (Fin 512)} {t : ℕ} {i : Fin 512} (short : p.length ≤ 2)
    (reach : descend entryChild (tableEntries (pmm.mem s)) pml4 p = some t)
    (absent : entryPresent (tableEntries (pmm.mem s) t i) = false) :
    ∃ s', vmmNextTable pmm s t i = ((pmm.allocPage s).1, s') ∧
      NewTable pmm Ready pml4 s used (p ++ [i]) (pmm.allocPage s) s' := by
  obtain ⟨page, unused, ready⟩ := fresh.page s used tables.ready found
  obtain ⟨m, step, write, blank, outside⟩ := tables.new_table fresh found short reach absent
  obtain ⟨tree, reached, leads, same, missing, linked⟩ :=
    link_blank tables.tree write short absent (tableLink_child page).2
  have memory := pmm.mem_withMem (pmm.allocPage s).2 m
  refine ⟨_, step, ⟨⟨fresh.write _ _ _ ready outside, ?_, ?_, ?_⟩, ?_⟩, ?_, ?_, ?_, ?_, ?_, ⟨_, rfl, outside⟩⟩
  · rwa [memory]
  · intro w reachedW
    rw [memory] at reachedW
    rcases reached w reachedW with old | rfl
    · exact Set.mem_insert_of_mem _ (tables.reached w old)
    · exact Set.mem_insert _ _
  · rintro w (rfl | member)
    · exact page
    · exact tables.pages w member
  · rwa [memory]
  · rwa [memory]
  · rwa [memory]
  · rwa [memory]
  · rwa [memory]
  · rwa [memory]

end Step

end RaryOS.Model
