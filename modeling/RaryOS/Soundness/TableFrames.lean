import RaryOS.Proofs.TableStock
import RaryOS.Soundness.VmmFrame

/-! # The frames that become page tables

`vmm_next_table` clears a new table through its physical address, which the boot page tables map below
4 GiB only. Since every call of the allocator keeps the hint at or below the first word with a free
frame, the lowest free frame is taken, and a frame above 4 GiB once none is free below.
-/

namespace RaryOS.Soundness

open RaryOS.Core RaryOS.Model

/-- The end of what the boot page tables map. -/
def bootMapped : ℕ := 2 ^ 32

/-- A call of the allocator, or writes of other code. -/
inductive PmmUse where
  | call (call : PmmCall)
  | write (mem : Memory)

/-- Other code leaves the bitmap alone. -/
inductive PmmUseStep : PmmSystem → PmmUse → PmmSystem → Prop
  | call {s t : PmmSystem} {call : PmmCall} : PmmStep s call t → PmmUseStep s (.call call) t
  | write (s : PmmSystem) {mem : Memory} :
      (∀ query, s.pmm.pmmBitmap ≤ query → query < s.pmm.bitsEnd → mem query = s.pmm.mem query) →
        PmmUseStep s (.write mem) ⟨{ s.pmm with mem := mem }, s.held⟩

/-- Some free frame lies below 4 GiB. -/
def LowFrameFree (s : PmmState) : Prop :=
  ∃ f < s.pmmMaxBlocks, pmmTestBit s f = false ∧ pageSize * (f + 1) ≤ bootMapped

/-- No frame is free. -/
def Exhausted (s : PmmState) : Prop := ∀ f < s.pmmMaxBlocks, pmmTestBit s f = true

/-- What every call keeps: which frames are used, and that none is free below the hint. -/
structure LowestFirst (init s : PmmState) (held : Finset ℕ) : Prop where
  owned : PmmOwned init s held
  hint : HintBelow s

namespace LowestFirst

variable {init s : PmmState} {held : Finset ℕ}

theorem of_accepts {m : Memory} {mbd : MultibootInfo} {mbdStart kernelEndPhys : ℕ}
    (accepts : PmmAccepts { mem := m } mbd mbdStart kernelEndPhys init) : LowestFirst init init ∅ := by
  refine ⟨owned_of_accepts accepts, fun g below _ => ?_⟩
  rw [accepts.hint] at below
  exact absurd below (Nat.not_lt_zero g)

/-- The lowest free frame is returned, which is not frame 0. -/
theorem alloc_lowest (lowest : LowestFirst init s held) :
    (∃ w f, f < s.pmmMaxBlocks ∧ f ≠ 0 ∧ (pmmAllocPage s).1 = pageSize * f ∧
        TakesFrame s (pmmAllocPage s).2 w f ∧ ∀ g < f, pmmTestBit s g = true) ∨
      pmmAllocPage s = (0, s) ∧ Exhausted s := by
  apply (pmmAllocPage_lowest lowest.owned.wf lowest.hint).imp_left
  rintro ⟨w, f, bound, address, takes, used⟩
  refine ⟨w, f, bound, ?_, address, takes, used⟩
  rintro rfl
  have reserved := (lowest.owned.used 0 bound).mpr (Or.inl (lowest.owned.zero (by omega)))
  rw [takes.free] at reserved
  cases reserved

theorem alloc_hint (lowest : LowestFirst init s held) : HintBelow (pmmAllocPage s).2 := by
  rcases lowest.alloc_lowest with ⟨w, f, _, _, _, takes, used⟩ | ⟨exhausted, _⟩
  · exact takes.hintBelow used
  · rw [exhausted]
    exact lowest.hint

theorem write (lowest : LowestFirst init s held) {mem : Memory}
    (agree : ∀ query, s.pmmBitmap ≤ query → query < s.bitsEnd → mem query = s.mem query) :
    LowestFirst init { s with mem := mem } held := by
  have covers : s.pmmMaxBlocks ≤ 64 * s.words := by simp only [PmmState.words]; omega
  refine ⟨lowest.owned.congr_mem agree, fun g below bound => ?_⟩
  rw [pmmTestBit_congr_mem agree (Nat.lt_of_lt_of_le bound covers)]
  exact lowest.hint g below bound

/-- The next frame lies below 4 GiB exactly when a free one does. -/
theorem alloc_low_iff (lowest : LowestFirst init s held) :
    ((pmmAllocPage s).1 ≠ 0 → (pmmAllocPage s).1 + pageSize ≤ bootMapped) ↔
      LowFrameFree s ∨ Exhausted s := by
  rcases lowest.alloc_lowest with ⟨w, f, bound, nonzero, address, takes, used⟩ | ⟨null, exhausted⟩
  · have found : pageSize * f ≠ 0 := Nat.mul_ne_zero (by decide) nonzero
    rw [address, ← Nat.mul_succ]
    refine ⟨fun low => Or.inl ⟨f, bound, takes.free, low found⟩, ?_⟩
    rintro (⟨g, _, free, low⟩ | exhausted) -
    · have least : f ≤ g := by
        by_contra above
        rw [used g (Nat.lt_of_not_le above)] at free
        cases free
      exact Nat.le_trans (Nat.mul_le_mul_left _ (Nat.succ_le_succ least)) low
    · have free := takes.free
      rw [exhausted f bound] at free
      cases free
  · refine iff_of_true (fun found => absurd (congrArg Prod.fst null) found) (Or.inr exhausted)

end LowestFirst

theorem PmmUseStep.lowestFirst {init : PmmState} {s t : PmmSystem} {use : PmmUse}
    (step : PmmUseStep s use t) (lowest : LowestFirst init s.pmm s.held) :
    LowestFirst init t.pmm t.held := by
  cases step with
  | write agree => exact lowest.write agree
  | call step =>
    refine ⟨step.owned lowest.owned, ?_⟩
    cases step with
    | alloc found => exact lowest.alloc_hint
    | exhausted null => exact lowest.alloc_hint
    | free member =>
      obtain ⟨f, bound, rfl, _⟩ := lowest.owned.frames _ member
      exact pmmFreePage_hintBelow lowest.hint bound

/-! ## The stock of low frames -/

/-- The allocator after `init`, with the pages `used` in use and no free frame below the hint. -/
def PmmLowest (init s : PmmState) (used : Set ℕ) : Prop := PmmReady init s used ∧ HintBelow s

theorem PmmLowest.lowestFirst {init s : PmmState} {used : Set ℕ} (ready : PmmLowest init s used) :
    ∃ held, LowestFirst init s held := by
  obtain ⟨⟨held, owned, _⟩, hint⟩ := ready
  exact ⟨held, owned, hint⟩

/-- Taking the lowest frame is taking one that is not in use. -/
theorem pmm_freshPages_lowest {init : PmmState} (clear : PmmClear init) :
    FreshPages pmmAllocator (PmmLowest init) where
  null s used ready null := by
    obtain ⟨held, lowest⟩ := ready.lowestFirst
    exact ⟨(pmm_freshPages clear).null s used ready.1 null, lowest.alloc_hint⟩
  page s used ready found := by
    obtain ⟨held, lowest⟩ := ready.lowestFirst
    obtain ⟨page, unused, next⟩ := (pmm_freshPages clear).page s used ready.1 found
    exact ⟨page, unused, next, lowest.alloc_hint⟩
  keeps s used ready := (pmm_freshPages clear).keeps s used ready.1
  write s used m ready agree := by
    obtain ⟨held, lowest⟩ := ready.lowestFirst
    exact ⟨(pmm_freshPages clear).write s used m ready.1 agree,
      (lowest.write fun query lower upper => agree query (ready.1.bitmap_apart lower upper)).hint⟩

/-- The free frames below 4 GiB. -/
def lowFreeFrames (s : PmmState) : Finset ℕ :=
  (Finset.range s.pmmMaxBlocks).filter fun f => pmmTestBit s f = false ∧ pageSize * (f + 1) ≤ bootMapped

theorem mem_lowFreeFrames {s : PmmState} {f : ℕ} :
    f ∈ lowFreeFrames s ↔
      f < s.pmmMaxBlocks ∧ pmmTestBit s f = false ∧ pageSize * (f + 1) ≤ bootMapped := by
  rw [lowFreeFrames, Finset.mem_filter, Finset.mem_range]

/-- While frames below 4 GiB are free they are what tables are made of. -/
theorem pmm_stocked (init : PmmState) :
    Stocked pmmAllocator (PmmLowest init) (fun s => (lowFreeFrames s).card)
      (fun page => page + pageSize ≤ bootMapped) where
  found s used ready some := by
    obtain ⟨held, lowest⟩ := ready.lowestFirst
    obtain ⟨f, member⟩ := Finset.card_ne_zero.mp some
    obtain ⟨bound, free, low⟩ := mem_lowFreeFrames.mp member
    have found : (pmmAllocPage s).1 ≠ 0 := by
      intro null
      rcases lowest.alloc_lowest with ⟨_, g, _, nonzero, address, _⟩ | ⟨_, exhausted⟩
      · rw [address] at null
        exact Nat.mul_ne_zero (by decide) nonzero null
      · rw [exhausted f bound] at free
        cases free
    exact ⟨found, lowest.alloc_low_iff.mpr (Or.inl ⟨f, bound, free, low⟩) found⟩
  takes s used ready := by
    obtain ⟨held, lowest⟩ := ready.lowestFirst
    change (lowFreeFrames s).card ≤ (lowFreeFrames (pmmAllocPage s).2).card + 1
    rcases lowest.alloc_lowest with ⟨_, f, _, _, _, takes, _⟩ | ⟨exhausted, _⟩
    · refine (Finset.card_le_card fun g member => ?_).trans (Finset.card_insert_le f _)
      obtain ⟨bound, free, low⟩ := mem_lowFreeFrames.mp member
      rw [Finset.mem_insert, mem_lowFreeFrames, takes.update.maxBlocks, takes.update.bits, free]
      by_cases same : f = g
      · exact Or.inl same.symm
      · exact Or.inr ⟨bound, by rw [decide_eq_false same]; rfl, low⟩
    · rw [exhausted]
      exact Nat.le_succ _
  write s used m ready agree := by
    refine congrArg Finset.card (Finset.filter_congr fun f inside => ?_)
    have covers : s.pmmMaxBlocks ≤ 64 * s.words := by simp only [PmmState.words]; omega
    have bit : pmmTestBit { s with mem := m } f = pmmTestBit s f :=
      pmmTestBit_congr_mem (fun query lower upper => agree query (ready.1.bitmap_apart lower upper))
        (Nat.lt_of_lt_of_le (Finset.mem_range.mp inside) covers)
    change pmmTestBit { s with mem := m } f = false ∧ _ ↔ _
    rw [bit]

/-! ## New tables -/

/-- A missing table is the page that the allocator returns. -/
theorem vmmNextTable_fst {σ : Type*} (pmm : PageAllocator σ) {s : σ} {table idx : ℕ}
    (absent : tableEntry (pmm.mem s) table idx &&& pagePresent = 0) :
    (vmmNextTable pmm s table idx).1 = (pmm.allocPage s).1 := by
  by_cases null : (pmm.allocPage s).1 = 0
  · simp only [vmmNextTable, absent, ne_eq, not_true_eq_false, if_false, null, if_true]
  · simp only [vmmNextTable, absent, ne_eq, not_true_eq_false, if_false, null]

/-- A call of `vmm_next_table` for a missing table is such a run: an allocation and writes to the new
page and to the entry. -/
theorem vmmNextTable_run {init : PmmState} (clear : PmmClear init) {s : PmmSystem}
    (owned : PmmOwned init s.pmm s.held) {table idx : ℕ}
    (absent : tableEntry s.pmm.mem table idx &&& pagePresent = 0)
    (found : (vmmNextTable pmmAllocator s.pmm table idx).1 ≠ 0)
    (apart : table + 8 * idx + 8 ≤ init.pmmBitmap ∨ init.bitsEnd ≤ table + 8 * idx) :
    ∃ mem, Path PmmUseStep s [.call .alloc, .write mem]
      ⟨(vmmNextTable pmmAllocator s.pmm table idx).2, insert (pmmAllocPage s.pmm).1 s.held⟩ := by
  rw [vmmNextTable_fst pmmAllocator absent] at found
  have nonzero : (pmmAllocPage s.pmm).1 ≠ 0 := found
  have grown := owned.alloc_page nonzero
  obtain ⟨f, bound, place, unused⟩ := grown.frames _ (Finset.mem_insert_self _ _)
  have page := clear.bitmap f (grown.maxBlocks ▸ bound) unused
  have step : (vmmNextTable pmmAllocator s.pmm table idx).2 =
      { (pmmAllocPage s.pmm).2 with
        mem := setTableEntry ((pmmAllocPage s.pmm).2.mem.fill (pmmAllocPage s.pmm).1 4096 0) table idx
          (((pmmAllocPage s.pmm).1 &&& pteAddrMask) ||| pagePresent ||| pageWritable ||| pageUser) } := by
    have call : pmmAllocator.allocPage s.pmm = pmmAllocPage s.pmm := rfl
    have entry : tableEntry (pmmAllocator.mem s.pmm) table idx &&& pagePresent = 0 := absent
    simp only [vmmNextTable, entry, ne_eq, not_true_eq_false, if_false, call, if_neg nonzero]
    rfl
  rw [step]
  refine ⟨_, .cons (.call (.alloc s found)) (.cons (.write _ fun query lower upper => ?_) (.nil _))⟩
  rw [grown.bitmap] at lower
  rw [grown.bitsEnd] at upper
  simp only [pageSize] at place page
  rw [setTableEntry, Memory.store64, Memory.store_apply_of_outside _ _ (by omega),
    Memory.fill_apply_of_outside _ _ (by omega)]

/-- After any run of the allocator with other code in between, `vmm_next_table` obtains and clears a
frame below 4 GiB, or none, exactly when a frame below 4 GiB is free or no frame is. -/
theorem new_table_low_iff {m : Memory} {mbd : MultibootInfo} {mbdStart kernelEndPhys : ℕ}
    {init : PmmState} (accepts : PmmAccepts { mem := m } mbd mbdStart kernelEndPhys init)
    {uses : List PmmUse} {s : PmmSystem} (run : Path PmmUseStep ⟨init, ∅⟩ uses s) {table idx : ℕ}
    (absent : tableEntry s.pmm.mem table idx &&& pagePresent = 0) :
    ((vmmNextTable pmmAllocator s.pmm table idx).1 ≠ 0 →
        (vmmNextTable pmmAllocator s.pmm table idx).1 + pageSize ≤ bootMapped) ↔
      LowFrameFree s.pmm ∨ Exhausted s.pmm := by
  have lowest : LowestFirst init s.pmm s.held :=
    run.invariant (fun s => LowestFirst init s.pmm s.held) (.of_accepts accepts)
      fun s use t lowest step => step.lowestFirst lowest
  rw [vmmNextTable_fst pmmAllocator absent]
  exact lowest.alloc_low_iff

/-- After one allocation on the sample machine, a table for the second entry of the root. -/
theorem new_table_low_iff_sample :
    ∃ init s, PmmAccepts { mem := sampleTables } sampleInfo 0x14F000 0x200000 init ∧
      Path PmmUseStep ⟨init, ∅⟩ [.call .alloc] s ∧
      (((vmmNextTable pmmAllocator s.pmm 0x110000 1).1 ≠ 0 →
          (vmmNextTable pmmAllocator s.pmm 0x110000 1).1 + pageSize ≤ bootMapped) ↔
        LowFrameFree s.pmm ∨ Exhausted s.pmm) := by
  obtain ⟨init, accepts⟩ := sampleTables_accepts
  obtain ⟨clear, boot⟩ := sample_vmmBoot accepts
  have kept := (pmm_freshPages clear).keeps init _ boot.ready 0x110000 (Or.inl rfl)
  have entry : tableEntry (pmmAllocPage init).2.mem 0x110000 1 = 0 :=
    (tableEntry_congr fun query lower upper => kept query (by omega) (by omega)).trans
      (boot.contents.inPml4 1 (by decide))
  have absent : tableEntry (pmmAllocPage init).2.mem 0x110000 1 &&& pagePresent = 0 := by
    rw [entry, Nat.zero_and]
  by_cases null : (pmmAllocPage init).1 = 0
  · have run : Path PmmUseStep ⟨init, ∅⟩ [.call .alloc] ⟨(pmmAllocPage init).2, ∅⟩ :=
      .cons (.call (.exhausted _ null)) (.nil _)
    exact ⟨init, _, accepts, run, new_table_low_iff accepts run absent⟩
  · have run : Path PmmUseStep ⟨init, ∅⟩ [.call .alloc]
        ⟨(pmmAllocPage init).2, insert (pmmAllocPage init).1 ∅⟩ :=
      .cons (.call (.alloc _ null)) (.nil _)
    exact ⟨init, _, accepts, run, new_table_low_iff accepts run absent⟩

/-! A machine whose memory below 4 GiB is taken by the kernel and the bitmap. -/

def kernelMemory : MemoryMap := ⟨20, 0x100000, 0x128000, 1⟩
def farMemory : MemoryMap := ⟨20, 0x100000000, 0x40000000, 1⟩

def farTables : Memory := bootMainTables (twoEntries kernelMemory farMemory) 0x110000 0x111000 0x112000

theorem farTables_map : MapEntries farTables 0x150030 0x150000 [kernelMemory, farMemory] :=
  bootTables_map (twoEntries_map (by decide) (by decide))

theorem farBoot : PmmBoot farTables sampleInfo 0x14F000 0x200000 [kernelMemory, farMemory] :=
  pmmBoot_of_map farTables_map (by decide)

/-- The first table that is missing comes from above 4 GiB. -/
theorem new_table_low_fails :
    ∃ init, PmmAccepts { mem := farTables } sampleInfo 0x14F000 0x200000 init ∧
      tableEntry init.mem 0x110000 1 &&& pagePresent = 0 ∧
      (vmmNextTable pmmAllocator init 0x110000 1).1 ≠ 0 ∧
      bootMapped ≤ (vmmNextTable pmmAllocator init 0x110000 1).1 := by
  obtain ⟨init, accepts⟩ := farBoot.accepts
  obtain ⟨_, initialized⟩ := accepts.initialized (by decide) farTables_map fun query _ upper =>
    Or.inl (Nat.lt_trans upper (by decide))
  have blocks : init.pmmMaxBlocks = 0x140000 := initialized.maxBlocks.trans (by decide)
  have size : init.pmmBitmapSize = 0x28000 := initialized.bitmapSize.trans (by decide)
  have far : Free init 0x100000 := by
    refine (farBoot.free_iff accepts 0x100000).mpr ⟨by rw [blocks]; decide, ⟨farMemory, by decide, rfl,
      by decide, by decide⟩, ?_, ?_, ?_, ?_⟩
    all_goals
      simp only [pageMeets_iff, size, pageSize, sampleInfo]
      decide
  have above : ∀ f < init.pmmMaxBlocks, pmmTestBit init f = false → 0x100000 ≤ f := by
    intro f bound free
    rw [blocks] at bound
    obtain ⟨_, ⟨e, member, _, inside⟩, _, unreserved, _⟩ :=
      (farBoot.free_iff accepts f).mp ⟨by rw [size]; omega, free⟩
    simp only [pageMeets_iff, size, pageSize] at unreserved
    simp only [PageInside, pageSize] at inside
    rcases List.mem_cons.mp member with rfl | member
    · simp only [kernelMemory] at inside
      omega
    · rw [List.mem_singleton.mp member] at inside
      simp only [farMemory] at inside
      omega
  have entry : tableEntry init.mem 0x110000 1 &&& pagePresent = 0 := by
    have outside : tableEntry init.mem 0x110000 1 = tableEntry farTables 0x110000 1 :=
      tableEntry_congr fun query _ upper => initialized.outside query (Or.inl (by omega))
    rw [outside, farTables, (bootMainTables_entries _ sampleSymbols).inPml4 1 (by decide)]
    rfl
  refine ⟨init, accepts, entry, ?_⟩
  rw [vmmNextTable_fst pmmAllocator entry]
  rcases (LowestFirst.of_accepts accepts).alloc_lowest with ⟨w, f, bound, _, address, takes, _⟩ | ⟨_, exhausted⟩
  · have high := above f bound takes.free
    have page : (pmmAllocator.allocPage init).1 = pageSize * f := address
    rw [page]
    simp only [pageSize, bootMapped]
    omega
  · have used := exhausted 0x100000 (by rw [blocks]; decide)
    rw [far.2] at used
    cases used

end RaryOS.Soundness
