import RaryOS.Proofs.TableWrites
import RaryOS.Soundness.VmmFrame

/-! # Runs of the mapping functions with any arguments

The flags may set any bit, those of the address field included: the entry is present, maps a page, and
its permission bits are those of the flags in any case. What is kept by linking a table and by writing
such an entry holds after every run.
-/

namespace RaryOS.Soundness

open RaryOS.Core RaryOS.Model

/-- A call with any arguments. -/
def VmmCallStep {σ : Type*} (pmm : PageAllocator σ) (pml4 : ℕ) (s : σ) (call : VmmCall) (t : σ) : Prop :=
  t = call.run pmm pml4 s

namespace VmmCall

variable {call : VmmCall}

/-- The path to the table that the entry of a call is in. -/
def tablePath (call : VmmCall) : List (Fin 512) := (pathOf call.virt).take call.size.above

/-- A bit of the entry outside the address field. -/
theorem entry_testBit (call : VmmCall) {i : ℕ} (low : i < 12) :
    call.entry.testBit i = (call.size.bits.testBit i || (call.flags.testBit i && !decide (7 = i))) := by
  rw [entry, Nat.testBit_or, Nat.testBit_or, Nat.testBit_and, Nat.testBit_and, pteAddrMask_testBit,
    not_pagePs_testBit, decide_eq_false (Nat.not_le.mpr low), decide_eq_true (show i < 64 by omega),
    Bool.false_and, Bool.and_false, Bool.false_or, Bool.true_and]

theorem entry_lt (call : VmmCall) : call.entry < 2 ^ 64 := by
  have bits : call.size.bits < 2 ^ 64 := by
    cases call.size <;> decide
  refine Nat.or_lt_two_pow (Nat.or_lt_two_pow ?_ bits) ?_
  · exact Nat.lt_of_le_of_lt Nat.and_le_right (by decide)
  · exact Nat.lt_of_le_of_lt Nat.and_le_right (by decide)

theorem entry_present (call : VmmCall) : entryPresent call.entry = true := by
  rw [entryPresent_eq, call.entry_testBit (by decide)]
  cases call.size <;> rfl

/-- The entry maps a large page exactly when the call does. -/
theorem entry_ps (call : VmmCall) : entryPs call.entry = decide (call.size ≠ .page) := by
  rw [entryPs_eq, call.entry_testBit (by decide), decide_eq_true rfl, Bool.not_true, Bool.and_false,
    Bool.or_false]
  cases call.size <;> rfl

theorem entry_user (call : VmmCall) : entryUser call.entry = entryUser call.flags := by
  have bits : call.size.bits.testBit 2 = false := by
    cases call.size <;> decide
  rw [entryUser_eq, entryUser_eq, call.entry_testBit (by decide), bits, Bool.false_or,
    decide_eq_false (by decide), Bool.not_false, Bool.and_true]

theorem entry_writable (call : VmmCall) : entryWritable call.entry = entryWritable call.flags := by
  have bits : call.size.bits.testBit 1 = false := by
    cases call.size <;> decide
  rw [entryWritable_eq, entryWritable_eq, call.entry_testBit (by decide), bits, Bool.false_or,
    decide_eq_false (by decide), Bool.not_false, Bool.and_true]

theorem tablePath_length (call : VmmCall) : call.tablePath.length = call.size.above := by
  rw [tablePath, List.length_take]
  have four : (pathOf call.virt).length = 4 := rfl
  have above := call.size.above_le
  omega

/-- The paths of the addresses of the page go through the entry. -/
theorem tablePath_split (call : VmmCall) {virt : ℕ}
    (inside : virt / 2 ^ call.size.shift = call.virt / 2 ^ call.size.shift) :
    ∃ below, pathOf virt = call.tablePath ++ call.index :: below ∧
      (below = [] ∨ entryChild call.entry = none) := by
  obtain ⟨size, target, phys, flags⟩ := call
  have upper {k : ℕ} (above : size.shift ≤ k) : virt / 2 ^ k = target / 2 ^ k := by
    obtain ⟨j, rfl⟩ := Nat.exists_eq_add_of_le above
    rw [Nat.pow_add, ← Nat.div_div_eq_div_mul, ← Nat.div_div_eq_div_mul, inside]
  cases size with
  | page =>
    refine ⟨[], ?_, Or.inl rfl⟩
    rw [pathOf, upper (by decide), upper (k := 30) (by decide), upper (k := 21) (by decide),
      upper (k := 12) (by decide)]
    rfl
  | huge2mb =>
    refine ⟨[Fin.ofNat 512 (virt / 2 ^ 12)], ?_, Or.inr (entryChild_of_ps (entry_ps _))⟩
    rw [pathOf, upper (by decide), upper (k := 30) (by decide), upper (k := 21) (by decide)]
    rfl
  | huge1gb =>
    refine ⟨[Fin.ofNat 512 (virt / 2 ^ 21), Fin.ofNat 512 (virt / 2 ^ 12)], ?_,
      Or.inr (entryChild_of_ps (entry_ps _))⟩
    rw [pathOf, upper (by decide), upper (k := 30) (by decide)]
    rfl

section Run

variable {σ : Type*} {pmm : PageAllocator σ} {Ready : σ → Set ℕ → Prop} {pml4 : ℕ}

/-- The entry of a call is written, the tables down to it being there. -/
structure EntryWritten (pmm : PageAllocator σ) (Ready : σ → Set ℕ → Prop) (pml4 : ℕ) (s s' : σ)
    (used : Set ℕ) (call : VmmCall) (t : ℕ) : Prop where
  tables : VmmTree pmm Ready pml4 s used
  aligned : ¬call.Misaligned
  state : ∃ m, s' = pmm.withMem s m
  write : EntryWrite (pmm.mem s) (pmm.mem s') pml4 call.tablePath t call.index call.entry

/-- A call for whose entry all tables are there writes it. -/
theorem run_written (fresh : FreshPages pmm Ready) {s : σ} {used : Set ℕ} (tables : VmmTree pmm Ready pml4 s used)
    (aligned : ¬call.Misaligned) {t : ℕ}
    (reach : descend entryChild (tableEntries (pmm.mem s)) pml4 call.tablePath = some t) :
    EntryWritten pmm Ready pml4 s (call.run pmm pml4 s) used call t ∧
      VmmTree pmm Ready pml4 (call.run pmm pml4 s) used := by
  have short : call.tablePath.length ≤ 3 := by
    rw [tablePath_length]
    cases call.size <;> decide
  have ps : call.tablePath.length < 3 → entryPs call.entry = true := by
    rw [tablePath_length, entry_ps]
    cases call.size <;> decide
  have down := tables.descend_eq (p := []) (by simpa using short) rfl reach
  have nonzero : (vmmDescend pmm s pml4 call.tablePath).1 ≠ 0 := by
    rw [down]
    exact (tables.isPage short reach).2.nonzero
  have write := tables.entry_write call.index short reach call.entry_lt ps
  rw [← pmm.mem_withMem s (setTableEntry _ _ _ _)] at write
  rw [run_eq call aligned, ← tablePath, vmmMapAt_of_found nonzero, down]
  exact ⟨⟨tables, aligned, ⟨_, rfl⟩, write⟩,
    (tables.write_leaf fresh call.index short reach call.entry_lt call.entry_present ps).1⟩

section Invariant

variable (fresh : FreshPages pmm Ready) (call : VmmCall) (Inv : σ → Set ℕ → Prop)
  (null : ∀ s used, VmmTree pmm Ready pml4 s used → Inv s used → (pmm.allocPage s).1 = 0 →
    Inv (pmm.allocPage s).2 used)
  (link : ∀ s used p i t s', p ++ [i] <+: call.tablePath → TableLinked pmm Ready pml4 s s' used p i t →
    Inv s used → Inv s' (insert (pmm.allocPage s).1 used))
include fresh null link

/-- A call is refused, or it writes its entry; the tables that it links first keep what linking a table
keeps. -/
theorem run_cases {s : σ} {used : Set ℕ} (tables : VmmTree pmm Ready pml4 s used) (holds : Inv s used) :
    call.Refused pmm pml4 s ∧
        (∃ used', VmmTree pmm Ready pml4 (call.run pmm pml4 s) used' ∧ Inv (call.run pmm pml4 s) used') ∨
      ¬call.Refused pmm pml4 s ∧ ∃ mid used' t, Inv mid used' ∧
        EntryWritten pmm Ready pml4 mid (call.run pmm pml4 s) used' call t ∧
        VmmTree pmm Ready pml4 (call.run pmm pml4 s) used' := by
  by_cases misaligned : call.Misaligned
  · rw [run_misaligned s misaligned]
    exact Or.inl ⟨Or.inl misaligned, used, tables, holds⟩
  have short : call.tablePath.length ≤ 3 := by
    rw [tablePath_length]
    cases call.size <;> decide
  have refused : call.Refused pmm pml4 s ↔
      HugeAbove (pmm.mem s) pml4 call.tablePath ∨ OutOfTables pmm s pml4 call.tablePath :=
    or_iff_right misaligned
  obtain ⟨used', grown, holds'⟩ := vmmDescend_invariant fresh Inv null link tables holds
    (List.nil_append _).symm short rfl
  obtain ⟨_, _, outcome⟩ := vmmDescend_spec fresh tables (p := []) (by simpa using short) rfl
  rw [run_eq call misaligned, ← tablePath, refused]
  rcases outcome with ⟨zero, gaveUp⟩ | ⟨nonzero, accepted, reach⟩
  · rw [vmmMapAt_of_null zero]
    exact Or.inl ⟨gaveUp, used', grown, holds'⟩
  · have ps : call.tablePath.length < 3 → entryPs call.entry = true := by
      rw [tablePath_length, entry_ps]
      cases call.size <;> decide
    have write := grown.entry_write call.index short reach call.entry_lt ps
    have tables' := (grown.write_leaf fresh call.index short reach call.entry_lt call.entry_present ps).1
    rw [← pmm.mem_withMem (vmmDescend pmm s pml4 call.tablePath).2 (setTableEntry _ _ _ _)] at write
    rw [vmmMapAt_of_found nonzero]
    exact Or.inr ⟨accepted, _, used', _, holds', ⟨grown, misaligned, ⟨_, rfl⟩, write⟩, tables'⟩

/-- What failed allocations, the links of new tables on the path, and the entry of a call keep, the call
keeps. -/
theorem run_invariant
    (leaf : ∀ s used t s', EntryWritten pmm Ready pml4 s s' used call t → Inv s used → Inv s' used)
    {s : σ} {used : Set ℕ} (tables : VmmTree pmm Ready pml4 s used) (holds : Inv s used) :
    ∃ used', VmmTree pmm Ready pml4 (call.run pmm pml4 s) used' ∧ Inv (call.run pmm pml4 s) used' := by
  rcases run_cases fresh call Inv null link tables holds with
    ⟨_, kept⟩ | ⟨_, mid, used', t, holds', written, tables'⟩
  · exact kept
  · exact ⟨used', tables', leaf _ _ _ _ written holds'⟩

end Invariant

end Run

end VmmCall

end RaryOS.Soundness
