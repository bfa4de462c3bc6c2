import RaryOS.Model.Permissions
import RaryOS.Proofs.VmmCalls

/-! # What a call keeps of the page tables

A call of a mapping function allocates pages, links each of them where a table was missing, and writes
its entry last. What every such step keeps, the call keeps. On the way the entries that an address is
walked through change only where one of them is written.
-/

namespace RaryOS.Model

open RaryOS.Core

section Descent

variable {σ : Type*} {pmm : PageAllocator σ} {Ready : σ → Set ℕ → Prop} {pml4 : ℕ}

/-- A page is allocated and linked as a table at an entry that was not present. -/
structure TableLinked (pmm : PageAllocator σ) (Ready : σ → Set ℕ → Prop) (pml4 : ℕ) (s s' : σ)
    (used : Set ℕ) (p : List (Fin 512)) (i : Fin 512) (t : ℕ) : Prop where
  tables : VmmTree pmm Ready pml4 s used
  found : (pmm.allocPage s).1 ≠ 0
  short : p.length ≤ 2
  absent : entryPresent (tableEntries (pmm.mem s) t i) = false
  state : ∃ m, s' = pmm.withMem (pmm.allocPage s).2 m
  write : EntryWrite (pmm.mem s) (pmm.mem s') pml4 p t i (tableLink (pmm.allocPage s).1)

/-- What failed allocations and the links of new tables on a path keep, a descent along it keeps. -/
theorem vmmDescend_invariant (fresh : FreshPages pmm Ready) {path : List (Fin 512)}
    (Inv : σ → Set ℕ → Prop)
    (null : ∀ s used, VmmTree pmm Ready pml4 s used → Inv s used → (pmm.allocPage s).1 = 0 →
      Inv (pmm.allocPage s).2 used)
    (link : ∀ s used p i t s', p ++ [i] <+: path → TableLinked pmm Ready pml4 s s' used p i t →
      Inv s used → Inv s' (insert (pmm.allocPage s).1 used))
    {s : σ} {used : Set ℕ} (tables : VmmTree pmm Ready pml4 s used) (holds : Inv s used)
    {p rest : List (Fin 512)} {t : ℕ} (split : path = p ++ rest) (short : path.length ≤ 3)
    (reach : descend entryChild (tableEntries (pmm.mem s)) pml4 p = some t) :
    ∃ used', VmmTree pmm Ready pml4 (vmmDescend pmm s t rest).2 used' ∧
      Inv (vmmDescend pmm s t rest).2 used' := by
  induction rest generalizing s used p t with
  | nil => exact ⟨used, tables, holds⟩
  | cons i rest ih =>
    have longer : path = p ++ [i] ++ rest := by rw [split, List.append_assoc, List.singleton_append]
    have inside : p.length + 1 ≤ 3 := by
      rw [longer, List.length_append, List.length_append, List.length_singleton] at short
      omega
    cases present : entryPresent (tableEntries (pmm.mem s) t i) with
    | true =>
      cases ps : entryPs (tableEntries (pmm.mem s) t i) with
      | true =>
        have step := vmmNextTable_huge pmm present ps
        simp only [vmmDescend, step, if_true]
        exact ⟨used, tables, holds⟩
      | false =>
        have step := vmmNextTable_link pmm present ps
        obtain ⟨next, nonzero⟩ := tables.link (by omega) reach present ps
        generalize tableEntries (pmm.mem s) t i &&& pteAddrMask = u at step next nonzero
        simp only [vmmDescend, step, if_neg nonzero]
        exact ih tables holds longer next
    | false =>
      by_cases none : (pmm.allocPage s).1 = 0
      · have step := vmmNextTable_null pmm present none
        simp only [vmmDescend, step, if_true]
        exact ⟨used, (tables.alloc_null fresh none).tables, null s used tables holds none⟩
      · obtain ⟨s', step, new⟩ := tables.alloc_page fresh none (by omega) reach present
        obtain ⟨m, same, write, _⟩ := tables.new_table fresh none (by omega) reach present
        obtain rfl : pmm.withMem (pmm.allocPage s).2 m = s' := congrArg Prod.snd (same.symm.trans step)
        rw [← pmm.mem_withMem (pmm.allocPage s).2 m] at write
        have linked : TableLinked pmm Ready pml4 s _ used p i t :=
          ⟨tables, none, by omega, present, ⟨m, rfl⟩, write⟩
        simp only [vmmDescend, step, if_neg none]
        exact ih new.grows.tables (link s used p i t _ ⟨rest, longer.symm⟩ linked holds) longer new.leads

/-- Where all tables of a path are there, a descent gives up nowhere. -/
theorem vmmDescend_of_descend {s : σ} {path : List (Fin 512)} {t u : ℕ}
    (reach : descend entryChild (tableEntries (pmm.mem s)) t path = some u) :
    ¬HugeAbove (pmm.mem s) t path ∧ ¬OutOfTables pmm s t path := by
  induction path generalizing t with
  | nil => exact ⟨id, id⟩
  | cons i rest ih =>
    rw [descend] at reach
    obtain ⟨v, link, reach⟩ := Option.bind_eq_some_iff.mp reach
    obtain ⟨present, ps, rfl⟩ := entryChild_eq_some.mp link
    obtain ⟨notHuge, enough⟩ := ih reach
    have step := vmmNextTable_link pmm present ps
    constructor
    · rintro ⟨_, here | below⟩
      · rw [ps] at here
        cases here
      · exact notHuge below
    · rintro (⟨absent, _⟩ | ⟨_, below⟩)
      · rw [present] at absent
        cases absent
      · rw [step] at below
        exact enough below

/-- Where all tables of a path are there, a descent changes nothing. -/
theorem VmmTree.descend_eq {s : σ} {used : Set ℕ} (tables : VmmTree pmm Ready pml4 s used)
    {p rest : List (Fin 512)} {t u : ℕ} (short : p.length + rest.length ≤ 3)
    (start : descend entryChild (tableEntries (pmm.mem s)) pml4 p = some t)
    (reach : descend entryChild (tableEntries (pmm.mem s)) t rest = some u) :
    vmmDescend pmm s t rest = (u, s) := by
  induction rest generalizing p t with
  | nil =>
    obtain rfl := Option.some.inj reach
    rfl
  | cons i rest ih =>
    rw [List.length_cons] at short
    have longer : (p ++ [i]).length + rest.length ≤ 3 := by
      rw [List.length_append, List.length_singleton]
      omega
    rw [descend] at reach
    obtain ⟨v, link, reach⟩ := Option.bind_eq_some_iff.mp reach
    have next : descend entryChild (tableEntries (pmm.mem s)) pml4 (p ++ [i]) = some v := by
      rw [descend_append, start, Option.bind_some, descend, link]
      rfl
    have nonzero := (tables.isPage (by omega) next).2.nonzero
    obtain ⟨present, ps, rfl⟩ := entryChild_eq_some.mp link
    have step := vmmNextTable_link pmm present ps
    simp only [vmmDescend, step, if_neg nonzero]
    exact ih longer next reach

end Descent

/-! ## The entries of a walk -/

theorem entryUser_eq (entry : ℕ) : entryUser entry = entry.testBit 2 := by
  rw [entryUser, pageUser, Nat.and_two_pow]
  cases entry.testBit 2 <;> rfl

theorem entryWritable_eq (entry : ℕ) : entryWritable entry = entry.testBit 1 := by
  rw [entryWritable, pageWritable, Nat.and_two_pow]
  cases entry.testBit 1 <;> rfl

/-- An entry does not lead on exactly when the walk ends at it. -/
theorem entryChild_eq_ite (entry : ℕ) :
    entryChild entry = if !entryPresent entry || entryPs entry then none else some (entry &&& pteAddrMask) := by
  rw [entryChild]
  cases entryPresent entry <;> cases entryPs entry <;> rfl

theorem walkEntries_eq_trail (m : Memory) (pml4 virt : ℕ) :
    walkEntries m pml4 virt = trail entryChild (tableEntries m) pml4 (pathOf virt) := by
  have step (table : ℕ) (i : Fin 512) (path : List (Fin 512)) :
      trail entryChild (tableEntries m) table (i :: path) =
        if !entryPresent (tableEntry m table i) || entryPs (tableEntry m table i) then [tableEntry m table i]
        else tableEntry m table i ::
          trail entryChild (tableEntries m) (tableEntry m table i &&& pteAddrMask) path := by
    rw [trail, entryChild_eq_ite, tableEntries]
    cases !entryPresent (tableEntry m table i) || entryPs (tableEntry m table i) <;> rfl
  rw [pathOf, step, step, step, step, trail, ite_self, walkEntries, pml4Index_eq, pdptIndex_eq, pdIndex_eq]
  simp only
  split_ifs <;> rfl

/-- The walk decides the entry that maps an address. -/
theorem leafEntry_of_trail {m m' : Memory} {pml4 virt : ℕ}
    (same : trail entryChild (tableEntries m') pml4 (pathOf virt) =
      trail entryChild (tableEntries m) pml4 (pathOf virt)) :
    leafEntry m' pml4 virt = leafEntry m pml4 virt := by
  apply leafEntry_of_lookup
  rw [lookup_eq_trail, lookup_eq_trail, same]

namespace EntryWrite

variable {m m' : Memory} {pml4 t entry : ℕ} {p path : List (Fin 512)} {i : Fin 512}
  (write : EntryWrite m m' pml4 p t i entry) (tree : TableTree entryChild (tableEntries m) pml4 3)
include write tree

/-- A walk that does not come to the written entry reads what it read before. -/
theorem trail_apart (bound : path.length ≤ 4) (apart : ¬p ++ [i] <+: path) :
    trail entryChild (tableEntries m') pml4 path = trail entryChild (tableEntries m) pml4 path :=
  trail_of_apart tree write.short write.reach write.others bound apart

/-- A walk that comes to an entry which ends it. -/
theorem trail_through (rest : List (Fin 512)) (ends : rest = [] ∨ entryChild entry = none) :
    trail entryChild (tableEntries m') pml4 (p ++ i :: rest) =
      trail entryChild (tableEntries m) pml4 p ++ [entry] := by
  rw [trail_written tree write.short write.reach write.others, trail, write.written]
  rcases ends with rfl | none
  · cases entryChild entry <;> rfl
  · rw [none]

end EntryWrite

end RaryOS.Model
