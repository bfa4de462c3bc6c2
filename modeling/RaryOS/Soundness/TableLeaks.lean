import RaryOS.Soundness.UsbMapping
import RaryOS.Soundness.VmmRuns

/-! # The frames of the page tables

Nothing frees the frame of a page table. `vmm_next_table` links every frame that it takes, so the frames
taken are the tables reached, up to those of the boot code. Only the entry of a large page can cut tables
off: where there was a link, what lies behind it stays marked used and is reached no more.
-/

namespace RaryOS.Soundness

open RaryOS.Core RaryOS.Model

/-! ## A record of the frames taken -/

section Recording

variable {σ : Type*} {pmm : PageAllocator σ} {Ready : σ → Set ℕ → Prop} {pml4 : ℕ}

/-- The same allocator with a record of the pages that it has returned. -/
def recording (pmm : PageAllocator σ) : PageAllocator (σ × List ℕ) where
  mem s := pmm.mem s.1
  withMem s m := (pmm.withMem s.1 m, s.2)
  allocPage s :=
    let allocated := pmm.allocPage s.1
    (allocated.1, allocated.2, if allocated.1 = 0 then s.2 else allocated.1 :: s.2)
  mem_withMem s m := pmm.mem_withMem s.1 m

theorem recording_freshPages (fresh : FreshPages pmm Ready) :
    FreshPages (recording pmm) fun s => Ready s.1 where
  null s := fresh.null s.1
  page s := fresh.page s.1
  keeps s := fresh.keeps s.1
  write s := fresh.write s.1

theorem recording_nextTable (s : σ × List ℕ) (table idx : ℕ) :
    (vmmNextTable (recording pmm) s table idx).1 = (vmmNextTable pmm s.1 table idx).1 ∧
      (vmmNextTable (recording pmm) s table idx).2.1 = (vmmNextTable pmm s.1 table idx).2 := by
  by_cases present : tableEntry (pmm.mem s.1) table idx &&& pagePresent = 0
  · by_cases null : (pmm.allocPage s.1).1 = 0 <;> simp [vmmNextTable, recording, present, null]
  · by_cases ps : tableEntry (pmm.mem s.1) table idx &&& pagePs = 0 <;>
      simp [vmmNextTable, recording, present, ps]

theorem recording_descend (s : σ × List ℕ) (table : ℕ) (path : List (Fin 512)) :
    (vmmDescend (recording pmm) s table path).1 = (vmmDescend pmm s.1 table path).1 ∧
      (vmmDescend (recording pmm) s table path).2.1 = (vmmDescend pmm s.1 table path).2 := by
  induction path generalizing s table with
  | nil => exact ⟨rfl, rfl⟩
  | cons i rest ih =>
    obtain ⟨next, state⟩ := @recording_nextTable _ pmm s table i
    simp only [vmmDescend, next]
    split
    · exact ⟨rfl, state⟩
    · rw [← state]
      exact ih _ _

/-- The record changes nothing. -/
theorem recording_run (s : σ × List ℕ) (call : VmmCall) :
    (call.run (recording pmm) pml4 s).1 = call.run pmm pml4 s.1 := by
  by_cases misaligned : call.Misaligned
  · rw [VmmCall.run_misaligned _ misaligned, VmmCall.run_misaligned _ misaligned]
  · obtain ⟨table, state⟩ := @recording_descend _ pmm s pml4 ((pathOf call.virt).take call.size.above)
    rw [VmmCall.run_eq call misaligned, VmmCall.run_eq call misaligned]
    by_cases null : (vmmDescend pmm s.1 pml4 ((pathOf call.virt).take call.size.above)).1 = 0
    · rw [vmmMapAt_of_null (table.trans null), vmmMapAt_of_null null, state]
    · rw [vmmMapAt_of_found (table ▸ null), vmmMapAt_of_found null, table, ← state]
      rfl

end Recording

/-! ## The tables behind an entry -/

/-- A large page is mapped by an entry that was the link of a table other than those of the boot code. -/
def VmmCall.CutsOff (boot : Set ℕ) (m : Memory) (pml4 : ℕ) (call : VmmCall) : Prop :=
  call.size ≠ .page ∧ ¬call.Misaligned ∧
    ∃ u, descend entryChild (tableEntries m) pml4 (call.tablePath ++ [call.index]) = some u ∧ u ∉ boot

/-- The tables in use are those of the boot code and the ones taken, and all of these are reached. What is
reached of the boot tables is reached as in the memory `m₀` that the boot code left, and those on the level
of the page directories link to nothing. -/
structure Ledger (boot : Set ℕ) (m₀ m : Memory) (pml4 : ℕ) (used : Set ℕ) (taken : List ℕ) : Prop where
  used : ∀ t, t ∈ used ↔ t ∈ boot ∨ t ∈ taken
  apart : ∀ t ∈ taken, t ∉ boot
  reached : ∀ t ∈ taken, Reached entryChild (tableEntries m) pml4 3 t
  home : ∀ p t, p.length ≤ 3 → descend entryChild (tableEntries m) pml4 p = some t → t ∈ boot →
    descend entryChild (tableEntries m₀) pml4 p = some t
  large : ∀ p t, p.length = 2 → descend entryChild (tableEntries m) pml4 p = some t → t ∈ boot →
    ∀ j, entryPresent (tableEntries m t j) = true ∧ entryChild (tableEntries m t j) = none

namespace Ledger

variable {boot used : Set ℕ} {m₀ m m' : Memory} {pml4 t entry : ℕ} {taken : List ℕ} {p : List (Fin 512)}
  {i : Fin 512}

/-- Entries of tables that are not reached do not matter. -/
theorem congr (ledger : Ledger boot m₀ m pml4 used taken)
    (agree : ∀ u j, Reached entryChild (tableEntries m) pml4 3 u → tableEntries m' u j = tableEntries m u j) :
    Ledger boot m₀ m' pml4 used taken where
  used := ledger.used
  apart := ledger.apart
  reached u member := by
    obtain ⟨q, short, reach⟩ := ledger.reached u member
    exact ⟨q, short, (descend_of_agree agree (by omega)).trans reach⟩
  home q u short reach := by
    rw [descend_of_agree agree (by omega)] at reach
    exact ledger.home q u short reach
  large q u length reach member j := by
    rw [descend_of_agree agree (by omega)] at reach
    rw [agree u j ⟨q, by omega, reach⟩]
    exact ledger.large q u length reach member j

/-- A new table is linked. -/
theorem link (ledger : Ledger boot m₀ m pml4 used taken) (tree : TableTree entryChild (tableEntries m) pml4 3)
    {u : ℕ} (unused : u ∉ used) (page : IsPage u) (short : p.length ≤ 2)
    (absent : entryPresent (tableEntries m t i) = false)
    (write : EntryWrite m m' pml4 p t i (tableLink u)) :
    Ledger boot m₀ m' pml4 (insert u used) (u :: taken) := by
  have foreign : u ∉ boot := fun member => unused ((ledger.used u).mpr (Or.inl member))
  obtain ⟨_, _, leads, _⟩ := link_blank tree write short absent (tableLink_child page).2
  -- a table that is not the new one is reached as before
  have old {q : List (Fin 512)} {w : ℕ} (bound : q.length ≤ 3)
      (reach : descend entryChild (tableEntries m') pml4 q = some w) (other : w ≠ u) :
      descend entryChild (tableEntries m) pml4 q = some w := by
    rcases descend_cases tree write.short write.reach write.others write.blank bound reach with
      old | ⟨_, _, link⟩
    · exact old
    · rw [write.written, (tableLink_child page).2] at link
      exact absurd (Option.some.inj link).symm other
  refine ⟨fun w => ?_, ?_, ?_, fun q w bound reach member => ?_, fun q w length reach member j => ?_⟩
  · rw [Set.mem_insert_iff, ledger.used, List.mem_cons]
    exact or_left_comm
  · rintro w (_ | ⟨_, member⟩)
    · exact foreign
    · exact ledger.apart w member
  · rintro w (_ | ⟨_, member⟩)
    · refine ⟨p ++ [i], ?_, leads⟩
      rw [List.length_append, List.length_singleton]
      omega
    · exact reached_of_none tree write.short write.reach write.others (entryChild_of_absent absent)
        (ledger.reached w member)
  · exact ledger.home q w bound (old bound reach fun same => foreign (same ▸ member)) member
  · have before := old (by omega) reach fun same => foreign (same ▸ member)
    have kept := ledger.large q w length before member
    rw [write.others w j ⟨q, by omega, before⟩]
    · exact kept j
    · rintro ⟨rfl, rfl⟩
      rw [(kept j).1] at absent
      cases absent

/-- An entry of a page is written, not over the link of a table other than those of the boot code. -/
theorem leaf (ledger : Ledger boot m₀ m pml4 used taken) (tree : TableTree entryChild (tableEntries m) pml4 3)
    (write : EntryWrite m m' pml4 p t i entry) (below : p ≠ [])
    (large : p.length < 3 → entryPresent entry = true ∧ entryChild entry = none)
    (uncut : p.length < 3 → ∀ u, descend entryChild (tableEntries m) pml4 (p ++ [i]) = some u → u ∈ boot) :
    Ledger boot m₀ m' pml4 used taken := by
  have positive := List.length_pos_of_ne_nil below
  -- every table is reached as before
  have old {q : List (Fin 512)} {w : ℕ} (bound : q.length ≤ 3)
      (reach : descend entryChild (tableEntries m') pml4 q = some w) :
      descend entryChild (tableEntries m) pml4 q = some w := by
    rcases descend_cases tree write.short write.reach write.others write.blank bound reach with
      old | ⟨above, _, link⟩
    · exact old
    · rw [write.written, (large above).2] at link
      cases link
  refine ⟨ledger.used, ledger.apart, fun w member => ?_, fun q w bound reach => ledger.home q w bound (old bound reach),
    fun q w length reach member j => ?_⟩
  · obtain ⟨q, bound, reach⟩ := ledger.reached w member
    refine ⟨q, bound, ?_⟩
    rw [descend_of_apart tree write.short write.reach write.others (by omega), reach]
    -- behind the written entry there are boot tables only
    rintro ⟨rest, rfl⟩
    simp only [List.length_append, List.length_singleton] at bound
    rw [descend_append] at reach
    obtain ⟨u, link, down⟩ := Option.bind_eq_some_iff.mp reach
    have bootTable := uncut (by omega) u link
    cases rest with
    | nil =>
      obtain rfl := Option.some.inj down
      exact ledger.apart u member bootTable
    | cons j rest =>
      rw [List.length_cons] at bound
      have length : (p ++ [i]).length = 2 := by
        rw [List.length_append, List.length_singleton]
        omega
      rw [descend, (ledger.large _ u length link bootTable j).2] at down
      cases down
  · have before := old (by omega) reach
    by_cases same : w = t ∧ j = i
    · obtain ⟨rfl, rfl⟩ := same
      obtain rfl := tree q p w (by omega) write.short before write.reach
      rw [write.written]
      exact large (by omega)
    · rw [write.others w j ⟨q, by omega, before⟩ same]
      exact ledger.large q w length before member j

/-- The boot tables. -/
theorem boot_ledger {pdpt pd : ℕ} (symbols : BootSymbols pml4 pdpt pd) (contents : BootEntries m pml4 pdpt pd) :
    Ledger (bootPages pml4 pdpt pd) m m pml4 (bootPages pml4 pdpt pd) [] where
  used _ := (or_iff_left List.not_mem_nil).symm
  apart _ member := absurd member List.not_mem_nil
  reached _ member := absurd member List.not_mem_nil
  home _ _ _ reach _ := reach
  large q u length reach _ j := by
    rcases boot_descend symbols contents reach with ⟨rfl, _⟩ | ⟨rfl, _⟩ | ⟨k, bound, _, rfl⟩
    · cases length
    · cases length
    · rw [boot_inPd contents bound]
      exact ⟨bootPdEntry_present _, entryChild_bootPdEntry _⟩

end Ledger

/-! ## Runs -/

section Runs

variable {init s₀ : PmmState} {pml4 pdpt pd : ℕ} {s : PmmState × List ℕ} {used boot : Set ℕ} {m₀ : Memory}
  {call : VmmCall} {calls : List VmmCall}

/-- The record is the ledger of the tables, and it has frames of the bitmap only. -/
structure Tracked (init : PmmState) (boot : Set ℕ) (m₀ : Memory) (pml4 : ℕ) (s : PmmState × List ℕ)
    (used : Set ℕ) : Prop where
  ledger : Ledger boot m₀ s.1.mem pml4 used s.2
  frames : ∀ t ∈ s.2, t / pageSize < init.pmmMaxBlocks

/-- The tables of a recorded run. -/
abbrev RecordTree (init : PmmState) (pml4 : ℕ) (s : PmmState × List ℕ) (used : Set ℕ) : Prop :=
  VmmTree (recording pmmAllocator) (fun s => PmmReady init s.1) pml4 s used

/-- A new page is a frame of the bitmap. -/
theorem alloc_frame {s : PmmState} (ready : PmmReady init s used) (found : (pmmAllocPage s).1 ≠ 0) :
    (pmmAllocPage s).1 / pageSize < init.pmmMaxBlocks := by
  obtain ⟨held, owned, _⟩ := ready
  rcases owned.alloc_cases with ⟨f, bound, address, _⟩ | exhausted
  · rw [address, Nat.mul_div_cancel_left f (by decide), ← owned.maxBlocks]
    exact bound
  · exact absurd (congrArg Prod.fst exhausted) found

/-- A page in use is marked used. -/
theorem marked_used {s : PmmState} {t : ℕ} (ready : PmmReady init s used) (member : t ∈ used)
    (aligned : t % pageSize = 0) (frame : t / pageSize < init.pmmMaxBlocks) :
    pmmTestBit s (t / pageSize) = true := by
  obtain ⟨held, owned, inUse⟩ := ready
  have place : t = pageSize * (t / pageSize) := by
    simp only [pageSize] at aligned ⊢
    omega
  rw [owned.used _ (owned.maxBlocks.symm ▸ frame), ← place]
  rcases (inUse t member).used with isHeld | reserved
  · exact Or.inr isHeld
  · exact Or.inl (reserved _ frame place)

/-- What the ledger needs while a call is under way: behind the entry that a large page will replace lie tables
of `boot_main` only. -/
structure TrackedCall (init : PmmState) (boot : Set ℕ) (m₀ : Memory) (pml4 : ℕ) (call : VmmCall)
    (s : PmmState × List ℕ) (used : Set ℕ) : Prop where
  tracked : Tracked init boot m₀ pml4 s used
  uncut : call.tablePath.length < 3 → ∀ u, descend entryChild (tableEntries s.1.mem) pml4
    (call.tablePath ++ [call.index]) = some u → u ∈ boot

theorem tablePath_short_iff (call : VmmCall) : call.tablePath.length < 3 ↔ call.size ≠ .page := by
  rw [call.tablePath_length]
  cases call.size <;> decide

namespace TrackedCall

/-- A failed allocation. -/
theorem null (clear : PmmClear init) (under : TrackedCall init boot m₀ pml4 call s used)
    (tables : RecordTree init pml4 s used) (none : ((recording pmmAllocator).allocPage s).1 = 0) :
    TrackedCall init boot m₀ pml4 call ((recording pmmAllocator).allocPage s).2 used := by
  have fresh := recording_freshPages (pmm_freshPages clear)
  have agree (u : ℕ) (j : Fin 512) (reached : Reached entryChild (tableEntries s.1.mem) pml4 3 u) :=
    tableEntries_congr (fresh.keeps s used tables.ready u (tables.reached u reached)) j
  have record : ((recording pmmAllocator).allocPage s).2.2 = s.2 := if_pos none
  refine ⟨⟨?_, ?_⟩, fun above u reach => ?_⟩
  · rw [record]
    exact under.tracked.ledger.congr agree
  · rw [record]
    exact under.tracked.frames
  · apply under.uncut above u
    rw [← reach]
    refine (descend_of_agree agree ?_).symm
    rw [List.length_append, List.length_singleton]
    omega

/-- A new table on the path of the call. -/
theorem link (clear : PmmClear init) {p : List (Fin 512)} {i : Fin 512} {t : ℕ} {s' : PmmState × List ℕ}
    (under : TrackedCall init boot m₀ pml4 call s used) (inside : p ++ [i] <+: call.tablePath)
    (linked : TableLinked (recording pmmAllocator) (fun s => PmmReady init s.1) pml4 s s' used p i t) :
    TrackedCall init boot m₀ pml4 call s' (insert ((recording pmmAllocator).allocPage s).1 used) := by
  obtain ⟨page, unused, _⟩ :=
    (recording_freshPages (pmm_freshPages clear)).page s used linked.tables.ready linked.found
  have tree := linked.tables.tree
  have write := linked.write
  have record : s'.2 = ((recording pmmAllocator).allocPage s).1 :: s.2 := by
    obtain ⟨m, rfl⟩ := linked.state
    exact if_neg linked.found
  refine ⟨⟨?_, ?_⟩, fun above u reach => ?_⟩
  · rw [record]
    exact under.tracked.ledger.link tree unused page linked.short linked.absent write
  · rw [record]
    rintro w (_ | ⟨_, member⟩)
    · exact alloc_frame linked.tables.ready linked.found
    · exact under.tracked.frames w member
  · -- the path to the entry goes on behind the new table
    have bound : (call.tablePath ++ [call.index]).length ≤ 3 := by
      rw [List.length_append, List.length_singleton]
      exact above
    rcases descend_cases tree write.short write.reach write.others write.blank bound reach with
      old | ⟨_, path, _⟩
    · exact under.uncut above u old
    · have longer := inside.length_le
      rw [← path, List.length_append, List.length_singleton] at longer
      omega

/-- The entry of the page. -/
theorem leaf {t : ℕ} {s' : PmmState × List ℕ} (under : TrackedCall init boot m₀ pml4 call s used)
    (written : VmmCall.EntryWritten (recording pmmAllocator) (fun s => PmmReady init s.1) pml4 s s' used call t) :
    TrackedCall init boot m₀ pml4 call s' used := by
  have tree := written.tables.tree
  have write : EntryWrite s.1.mem s'.1.mem pml4 call.tablePath t call.index call.entry := written.write
  have record : s'.2 = s.2 := by
    obtain ⟨m, rfl⟩ := written.state
    rfl
  have large (above : call.tablePath.length < 3) : entryChild call.entry = none := by
    apply entryChild_of_ps
    rw [call.entry_ps]
    exact decide_eq_true ((tablePath_short_iff call).mp above)
  refine ⟨⟨?_, ?_⟩, fun above u reach => ?_⟩
  · rw [record]
    refine under.tracked.ledger.leaf tree write ?_ (fun above => ⟨call.entry_present, large above⟩) under.uncut
    rw [← List.length_pos_iff, call.tablePath_length]
    cases call.size <;> decide
  · rw [record]
    exact under.tracked.frames
  · rw [descend_append, descend_written tree write.short write.reach write.others, Option.bind_some,
      descend, write.written, large above] at reach
    cases reach

end TrackedCall

/-- A call that cuts nothing off keeps the ledger. -/
theorem Tracked.run (clear : PmmClear init) (tables : RecordTree init pml4 s used)
    (tracked : Tracked init boot m₀ pml4 s used) (uncut : ¬call.CutsOff boot s.1.mem pml4) :
    ∃ used', RecordTree init pml4 (call.run (recording pmmAllocator) pml4 s) used' ∧
      Tracked init boot m₀ pml4 (call.run (recording pmmAllocator) pml4 s) used' := by
  by_cases misaligned : call.Misaligned
  · rw [VmmCall.run_misaligned s misaligned]
    exact ⟨used, tables, tracked⟩
  have fresh := recording_freshPages (pmm_freshPages clear)
  have start : TrackedCall init boot m₀ pml4 call s used := by
    refine ⟨tracked, fun above u reach => ?_⟩
    by_contra other
    exact uncut ⟨(tablePath_short_iff call).mp above, misaligned, u, reach, other⟩
  have kept := call.run_invariant fresh (TrackedCall init boot m₀ pml4 call) ?_ ?_ ?_ tables start
  · obtain ⟨used', tables', under⟩ := kept
    exact ⟨used', tables', under.tracked⟩
  · exact fun s used tables under none => under.null clear tables none
  · exact fun s used p i t s' inside linked under => under.link clear inside linked
  · exact fun s used t s' written under => under.leaf written

/-- The pages that `vmm_next_table` has taken and that are still marked used are the tables that are
reached, other than those of `boot_main`. -/
def Accounted (pml4 pdpt pd : ℕ) (s : PmmState × List ℕ) : Prop :=
  ∀ t, t ∈ s.2 ∧ pmmTestBit s.1 (t / pageSize) = true ↔
    Reached entryChild (tableEntries s.1.mem) pml4 3 t ∧ t ∉ bootPages pml4 pdpt pd

theorem Tracked.accounted (tables : RecordTree init pml4 s used)
    (tracked : Tracked init (bootPages pml4 pdpt pd) m₀ pml4 s used) : Accounted pml4 pdpt pd s := by
  intro t
  constructor
  · rintro ⟨member, _⟩
    exact ⟨tracked.ledger.reached t member, tracked.ledger.apart t member⟩
  · rintro ⟨reached, other⟩
    have inUse := tables.reached t reached
    have member := ((tracked.ledger.used t).mp inUse).resolve_left other
    exact ⟨member, marked_used tables.ready inUse (tables.pages t inUse).aligned (tracked.frames t member)⟩

/-- A call that cuts tables off loses the first of them. -/
theorem not_accounted_of_cutsOff (clear : PmmClear init) (tables : RecordTree init pml4 s used)
    (tracked : Tracked init (bootPages pml4 pdpt pd) m₀ pml4 s used)
    (cuts : call.CutsOff (bootPages pml4 pdpt pd) s.1.mem pml4) :
    ¬Accounted pml4 pdpt pd (call.run (recording pmmAllocator) pml4 s) := by
  obtain ⟨size, aligned, u, reach, other⟩ := cuts
  have length := call.tablePath_length
  have above : call.tablePath.length < 3 := by
    rw [length]
    revert size
    cases call.size <;> decide
  have bound : (call.tablePath ++ [call.index]).length ≤ 3 := by
    rw [List.length_append, List.length_singleton]
    exact above
  have inUse := tables.reached u ⟨_, bound, reach⟩
  have member := ((tracked.ledger.used u).mp inUse).resolve_left other
  have down := reach
  rw [descend_append] at down
  obtain ⟨t, down, link⟩ := Option.bind_eq_some_iff.mp down
  obtain ⟨written, tables'⟩ := call.run_written (recording_freshPages (pmm_freshPages clear)) tables aligned down
  have record : (call.run (recording pmmAllocator) pml4 s).2 = s.2 := by
    obtain ⟨m, same⟩ := written.state
    rw [same]
    rfl
  have still := marked_used tables'.ready inUse (tables.pages u inUse).aligned (tracked.frames u member)
  have tree := tables.tree
  have write := written.write
  have none : entryChild (tableEntries (call.run (recording pmmAllocator) pml4 s).1.mem t call.index) = none := by
    have entry : tableEntries (call.run (recording pmmAllocator) pml4 s).1.mem t call.index = call.entry :=
      write.written
    rw [entry]
    apply entryChild_of_ps
    rw [call.entry_ps]
    exact decide_eq_true size
  have child : entryChild (tableEntries s.1.mem t call.index) = some u := by
    rw [descend] at link
    obtain ⟨v, child, same⟩ := Option.bind_eq_some_iff.mp link
    obtain rfl := Option.some.inj same
    exact child
  intro accounted
  exact not_reached_of_link tree write.short write.reach write.others write.blank above child none
    ((accounted u).mp ⟨record.symm ▸ member, still⟩).1

/-- A run of the mapping functions from the boot tables, recorded, in which no call cuts off a table. -/
def WholeRun (pml4 pdpt pd : ℕ) (s₀ : PmmState) (calls : List VmmCall) (s : PmmState × List ℕ) : Prop :=
  Path (fun s call t => VmmCallStep (recording pmmAllocator) pml4 s call t ∧
    ¬call.CutsOff (bootPages pml4 pdpt pd) s.1.mem pml4) (s₀, []) calls s

theorem tracked_of_run (clear : PmmClear init) (boot : VmmBoot pmmAllocator (PmmReady init) pml4 pdpt pd s₀)
    (run : WholeRun pml4 pdpt pd s₀ calls s) :
    ∃ used, RecordTree init pml4 s used ∧ Tracked init (bootPages pml4 pdpt pd) s₀.mem pml4 s used := by
  have tree := boot.tree
  refine Path.invariant run (fun s => ∃ used, RecordTree init pml4 s used ∧
    Tracked init (bootPages pml4 pdpt pd) s₀.mem pml4 s used) ⟨bootPages pml4 pdpt pd, ?_, ?_, ?_⟩ ?_
  · exact ⟨tree.ready, tree.tree, tree.reached, tree.pages⟩
  · exact Ledger.boot_ledger boot.symbols boot.contents
  · exact fun t member => absurd member List.not_mem_nil
  · rintro s call t ⟨used, tables, tracked⟩ ⟨rfl, uncut⟩
    exact tracked.run clear tables uncut

/-- In every run of the mapping functions from the boot tables in which no call cuts off a table, the
frames taken that are marked used are exactly the tables other than those of the boot code, and a further
call keeps it so exactly when it cuts off none. -/
theorem tables_accounted_iff (clear : PmmClear init) (boot : VmmBoot pmmAllocator (PmmReady init) pml4 pdpt pd s₀)
    (run : WholeRun pml4 pdpt pd s₀ calls s) :
    Accounted pml4 pdpt pd s ∧ ∀ call : VmmCall,
      Accounted pml4 pdpt pd (call.run (recording pmmAllocator) pml4 s) ↔
        ¬call.CutsOff (bootPages pml4 pdpt pd) s.1.mem pml4 := by
  obtain ⟨used, tables, tracked⟩ := tracked_of_run clear boot run
  refine ⟨tracked.accounted tables, fun call => ⟨fun accounted cuts => ?_, fun uncut => ?_⟩⟩
  · exact not_accounted_of_cutsOff clear tables tracked cuts accounted
  · obtain ⟨used', tables', tracked'⟩ := tracked.run clear tables uncut
    exact tracked'.accounted tables'

end Runs

/-! The sample machine above 512 GiB, where the boot tables have nothing. -/

/-- A 2 MiB page and its page directory. -/
def aboveBoot : VmmCall := ⟨.huge2mb, 0x8000000000, 0x200000, 3⟩

/-- A 1 GiB page in place of this page directory. -/
def aboveBootHuge : VmmCall := ⟨.huge1gb, 0x8000000000, 0x40000000, 3⟩

/-- There are frames for the two tables that the first call needs. -/
theorem aboveBoot_written {t : PmmState}
    (accepts : PmmAccepts { mem := sampleTables } sampleInfo 0x14F000 0x200000 t) :
    ∃ u, descend entryChild (tableEntries (aboveBoot.run pmmAllocator 0x110000 t).mem) 0x110000 [1, 0] = some u := by
  obtain ⟨clear, boot⟩ := sample_vmmBoot_lowest accepts
  have fresh := pmm_freshPages_lowest clear
  have enough : Enough pmmAllocator (fun s => (lowFreeFrames s).card) 0x110000 {[1], [1, 0]} t :=
    (Finset.card_filter_le _ _).trans ((by decide : Finset.card {[1], [1, 0]} ≤ 3).trans
      (sample_lowFreeFrames accepts))
  have covers : ∀ q : List (Fin 512), q ≠ [] → q <+: [1, 0] → q ∈ ({[1], [1, 0]} : Finset (List (Fin 512))) := by
    intro q nonempty inside
    have take := List.prefix_iff_eq_take.mp inside
    match q, nonempty with
    | [i], _ =>
      rw [take, List.length_singleton]
      decide
    | i :: j :: r, _ =>
      rw [take, List.length_cons, List.length_cons, List.take_succ_cons, List.take_succ_cons, List.take_nil]
      decide
  have supplied := (vmmDescend_enough fresh (pmm_stocked t) (by decide) boot.tree (p := []) (by decide) rfl
    covers enough).1
  have absent : entryPresent (tableEntries t.mem 0x110000 1) = false := by
    have entry : tableEntries t.mem 0x110000 1 = 0 := boot.contents.inPml4 1 (by decide)
    rw [entry]
    decide
  have accepted : ¬aboveBoot.Refused pmmAllocator 0x110000 t := by
    rintro (misaligned | huge | missing)
    · exact absurd misaligned.2 (by decide)
    · exact absurd (absent.symm.trans huge.1) (by decide)
    · exact supplied missing
  rcases aboveBoot.run_cases fresh (fun _ _ => True) (fun _ _ _ _ _ => trivial)
    (fun _ _ _ _ _ _ _ _ _ => trivial) boot.tree trivial with ⟨refused, _⟩ | ⟨_, mid, used, u, _, written, _⟩
  · exact absurd refused accepted
  · have tree := written.tables.tree
    exact ⟨u, descend_written tree written.write.short written.write.reach written.write.others⟩

/-- The first call cuts off nothing. -/
theorem aboveBoot_whole {t : PmmState}
    (accepts : PmmAccepts { mem := sampleTables } sampleInfo 0x14F000 0x200000 t) :
    WholeRun 0x110000 0x111000 0x112000 t [aboveBoot] (aboveBoot.run (recording pmmAllocator) 0x110000 (t, [])) := by
  obtain ⟨_, boot⟩ := sample_vmmBoot accepts
  have root : entryChild (tableEntries t.mem 0x110000 1) = none :=
    (boot_inPml4 boot.symbols boot.contents 1).trans (if_neg (by decide))
  refine .cons ⟨rfl, fun cuts => ?_⟩ (.nil _)
  obtain ⟨_, _, u, reach, _⟩ := cuts
  have none : descend entryChild (tableEntries t.mem) 0x110000 ([1, 0] ++ [0]) = none := by
    simp only [List.cons_append, descend, root, Option.bind_none]
  cases none.symm.trans reach

/-- The second cuts off the page directory of the first. -/
theorem aboveBootHuge_cutsOff {t : PmmState}
    (accepts : PmmAccepts { mem := sampleTables } sampleInfo 0x14F000 0x200000 t) :
    aboveBootHuge.CutsOff (bootPages 0x110000 0x111000 0x112000)
      (aboveBoot.run (recording pmmAllocator) 0x110000 (t, [])).1.mem 0x110000 := by
  obtain ⟨clear, boot⟩ := sample_vmmBoot accepts
  have root : entryChild (tableEntries t.mem 0x110000 1) = none :=
    (boot_inPml4 boot.symbols boot.contents 1).trans (if_neg (by decide))
  obtain ⟨u, reach⟩ := aboveBoot_written accepts
  obtain ⟨used, tables, tracked⟩ := tracked_of_run clear boot (aboveBoot_whole accepts)
  rw [recording_run]
  refine ⟨by decide, fun misaligned => absurd misaligned.2 (by decide), u, reach, fun member => ?_⟩
  have home := tracked.ledger.home [1, 0] u (by decide) (by rw [recording_run]; exact reach) member
  rw [descend, root] at home
  cases home

/-- Pages beside the large one, in a page table of their own, are accounted for; the 1 GiB page in place of all of
them leaves a page directory over. -/
theorem tables_accounted_iff_sample :
    ∃ t, PmmAccepts { mem := sampleTables } sampleInfo 0x14F000 0x200000 t ∧
      (∃ s, WholeRun 0x110000 0x111000 0x112000 t
          [aboveBoot, ⟨.page, 0x8000400000, 0x5000, 3⟩, ⟨.page, 0x8000401000, 0x6000, 3⟩] s ∧
        Accounted 0x110000 0x111000 0x112000 s) ∧
      ∃ s, WholeRun 0x110000 0x111000 0x112000 t [aboveBoot] s ∧ Accounted 0x110000 0x111000 0x112000 s ∧
        ¬Accounted 0x110000 0x111000 0x112000 (aboveBootHuge.run (recording pmmAllocator) 0x110000 s) := by
  obtain ⟨t, accepts⟩ := sampleTables_accepts
  obtain ⟨clear, boot⟩ := sample_vmmBoot accepts
  have first := aboveBoot_whole accepts
  have run : WholeRun 0x110000 0x111000 0x112000 t
      [aboveBoot, ⟨.page, 0x8000400000, 0x5000, 3⟩, ⟨.page, 0x8000401000, 0x6000, 3⟩] _ :=
    (first.snoc ⟨rfl, fun cuts => cuts.1 rfl⟩).snoc ⟨rfl, fun cuts => cuts.1 rfl⟩
  obtain ⟨accounted, further⟩ := tables_accounted_iff clear boot first
  refine ⟨t, accepts, ⟨_, run, (tables_accounted_iff clear boot run).1⟩, _, first, accounted, fun still => ?_⟩
  exact (further aboveBootHuge).mp still (aboveBootHuge_cutsOff accepts)

theorem tables_accounted_fails :
    ∃ t s, PmmAccepts { mem := sampleTables } sampleInfo 0x14F000 0x200000 t ∧
      Path (VmmCallStep (recording pmmAllocator) 0x110000) (t, []) [aboveBoot, aboveBootHuge] s ∧
      ¬Accounted 0x110000 0x111000 0x112000 s := by
  obtain ⟨t, accepts⟩ := sampleTables_accepts
  obtain ⟨clear, boot⟩ := sample_vmmBoot accepts
  obtain ⟨used, tables, tracked⟩ := tracked_of_run clear boot (aboveBoot_whole accepts)
  exact ⟨t, _, accepts, .cons rfl (.cons rfl (.nil _)),
    not_accounted_of_cutsOff clear tables tracked (aboveBootHuge_cutsOff accepts)⟩

end RaryOS.Soundness
