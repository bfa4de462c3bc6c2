import RaryOS.Proofs.MallocCalls
import RaryOS.Soundness.HeapPlacement
import RaryOS.Soundness.PmmRun

/-! # Pages and heap ranges from one memory

Nothing tells the page allocator about the heap: every page behind the bitmap that the memory map
offers may be returned by `pmm_alloc_page` and by `sbrk`. Runs keep the two apart as long as the heap
cannot reach such a page.
-/

namespace RaryOS.Soundness

open RaryOS.Core RaryOS.Model

/-- The kernel, the pages returned by `pmm_alloc_page`, and the ranges returned by `sbrk`. -/
structure KernelSystem where
  kernel : Kernel
  pages : List ℕ
  ranges : List (ℕ × ℕ)

inductive KernelCall where
  | allocPage
  | malloc (size : ℕ)
deriving DecidableEq, Repr

/-- One call of either allocator. `malloc` calls `sbrk` at most once, which returns the bytes between
the old and the new break. -/
inductive KernelStep : KernelSystem → KernelCall → KernelSystem → Prop
  | allocPage (s : KernelSystem) : KernelStep s .allocPage
      { s with
        kernel := { s.kernel with pmm := (pmmAllocPage s.kernel.pmm).2 }
        pages := if (pmmAllocPage s.kernel.pmm).1 = 0 then s.pages
          else (pmmAllocPage s.kernel.pmm).1 :: s.pages }
  | malloc {s : KernelSystem} {size fuel ptr : ℕ} {h : KernelHeap} :
      malloc sbrk fuel s.kernel.heap size = some (ptr, h) → KernelStep s (.malloc size)
      { s with
        kernel := s.kernel.withHeap h
        ranges := if h.heapEnd = s.kernel.heapEnd then s.ranges
          else (s.kernel.heapEnd, h.heapEnd) :: s.ranges }

/-- No returned page meets a returned range. -/
def KernelSystem.Apart (s : KernelSystem) : Prop :=
  ∀ page ∈ s.pages, ∀ range ∈ s.ranges, page + pageSize ≤ range.1 ∨ range.2 ≤ page

/-- A call whose request, if it is one, does not make `malloc` move the break down. -/
def FittingStep (s : KernelSystem) (call : KernelCall) (t : KernelSystem) : Prop :=
  KernelStep s call t ∧ ∀ size, call = .malloc size → RequestFits s.kernel.heap size

/-- One past the last byte that `malloc` can get from `sbrk`: it asks for multiples of 8, for at least
a header and 8 bytes. -/
def heapReach (start limit : ℕ) : ℕ :=
  if limit < start + headerSize + 8 then start else start + (limit - start) / 8 * 8

/-- The heap cannot grow, or it starts behind the words of the bitmap and reaches no page behind the bitmap
that lies inside an available region. -/
def HeapUnshared (mbd : MultibootInfo) (kernelEnd : ℕ) (entries : List MemoryMap) : Prop :=
  let start := heapStart mbd kernelEnd
  let reach := heapReach start (heapLimitOf kernelEnd start entries)
  start < reach → RegionsFitWords mbd.memUpper entries ∧
    ∀ e ∈ entries, e.type = 1 → ∀ f, PageInside f e.addr (e.addr + e.len) →
      kernelEnd + pmmBitmapSizeOf (availableTop 0 entries) ≤ pageSize * f →
        pageSize * (f + 1) ≤ start ∨ reach ≤ pageSize * f

/-! ## A heap that cannot grow -/

/-- No block, no break moved, no range. -/
structure StuckHeap (start limit : ℕ) (s : KernelSystem) : Prop where
  rep : HeapRep start s.kernel.heap []
  limit : s.kernel.heapLimit = limit
  ranges : s.ranges = []

theorem StuckHeap.step {start limit : ℕ} {s t : KernelSystem} {call : KernelCall}
    (tight : limit < start + headerSize + 8) (step : FittingStep s call t)
    (stuck : StuckHeap start limit s) : StuckHeap start limit t := by
  obtain ⟨step, fits⟩ := step
  cases step with
  | allocPage =>
    refine ⟨?_, stuck.limit, stuck.ranges⟩
    have rep := stuck.rep
    exact ⟨rep.positive, rep.endSmall, rep.limitSmall, rep.tiles, trivial, rep.first, rep.fits⟩
  | @malloc size fuel ptr h returns =>
    have request := fits size rfl
    obtain ⟨blocks, effect⟩ := malloc_effect true stuck.rep request returns
    have atStart : start = s.kernel.heapEnd := stuck.rep.tiles
    have unmoved : h.heapEnd = s.kernel.heapEnd := by
      rcases effect.extends_ with same | ⟨nonzero, moved, room⟩
      · exact same
      · have limit : s.kernel.heap.heapLimit = limit := stuck.limit
        have large := request.le_round.1
        have whole : roundRequest size = (size + 7) % 2 ^ 64 / 8 * 8 := rfl
        have moved : h.heapEnd = s.kernel.heapEnd + (headerSize + roundRequest size) := moved
        simp only [headerSize] at *
        omega
    have none : blocks = [] := by
      cases blocks with
      | nil => rfl
      | cons b rest =>
        obtain ⟨first, _, tail⟩ := effect.rep.tiles
        have length := b.addr_le_stop
        have bound := tail.le
        simp only [headerSize] at length
        omega
    subst none
    refine ⟨?_, ?_, ?_⟩
    · simp only
      rw [Kernel.withHeap_heap _ _ effect.limits.1 effect.limits.2]
      exact effect.rep
    · exact stuck.limit
    · simp only [unmoved, if_true]
      exact stuck.ranges

/-! ## A heap that grows -/

section Growing

variable {init : PmmState} {start limit : ℕ}

/-- The invariant of both allocators: the bitmap lies below the heap, the heap stays within reach, and
returned pages are frames that `pmm_init` left free. -/
structure SharedMemory (init : PmmState) (start limit : ℕ) (s : KernelSystem) : Prop where
  heap : ∃ blocks, HeapRep start s.kernel.heap blocks
  pages : ∃ held, PmmOwned init s.kernel.pmm held ∧ ∀ page ∈ s.pages, page ∈ held
  below : s.kernel.pmm.bitsEnd ≤ start
  aligned : ∃ n, s.kernel.heapEnd = start + 8 * n ∧ s.kernel.heapEnd ≤ heapReach start limit
  ranges : ∀ range ∈ s.ranges, start ≤ range.1 ∧ range.2 ≤ heapReach start limit
  limit : s.kernel.heapLimit = limit

theorem SharedMemory.allocPage {s : KernelSystem} (shared : SharedMemory init start limit s) :
    SharedMemory init start limit
      { s with
        kernel := { s.kernel with pmm := (pmmAllocPage s.kernel.pmm).2 }
        pages := if (pmmAllocPage s.kernel.pmm).1 = 0 then s.pages
          else (pmmAllocPage s.kernel.pmm).1 :: s.pages } := by
  obtain ⟨blocks, rep⟩ := shared.heap
  obtain ⟨held, owned, members⟩ := shared.pages
  rcases owned.alloc_cases with ⟨f, _, address, nonzero, _, _, update, _⟩ | exhausted
  · have page : (pmmAllocPage s.kernel.pmm).1 ≠ 0 := by
      rw [address]
      simp only [pageSize]
      omega
    refine ⟨⟨blocks, rep.congr (fun query above => ?_) rfl rfl rfl⟩,
      ⟨_, owned.alloc_page page, fun p member => ?_⟩, ?_, shared.aligned, shared.ranges, shared.limit⟩
    · exact update.outside query (Or.inr (Nat.le_trans shared.below above))
    · rw [if_neg page] at member
      rcases List.mem_cons.mp member with rfl | old
      · exact Finset.mem_insert_self _ _
      · exact Finset.mem_insert_of_mem (members p old)
    · simp only [update.bitsEnd]
      exact shared.below
  · simp only [exhausted, if_true]
    exact shared

theorem SharedMemory.malloc {s : KernelSystem} (shared : SharedMemory init start limit s)
    {size fuel ptr : ℕ} {h : KernelHeap} (request : RequestFits s.kernel.heap size)
    (returns : malloc sbrk fuel s.kernel.heap size = some (ptr, h)) :
    SharedMemory init start limit
      { s with
        kernel := s.kernel.withHeap h
        ranges := if h.heapEnd = s.kernel.heapEnd then s.ranges
          else (s.kernel.heapEnd, h.heapEnd) :: s.ranges } := by
  obtain ⟨blocks, rep⟩ := shared.heap
  obtain ⟨held, owned, members⟩ := shared.pages
  obtain ⟨blocks', effect⟩ := malloc_effect true rep request returns
  have startLe : start ≤ s.kernel.heapEnd := rep.start_le
  have limitEq : s.kernel.heap.heapLimit = limit := shared.limit
  obtain ⟨n, place, within⟩ := shared.aligned
  have aligned : ∃ n, h.heapEnd = start + 8 * n ∧ h.heapEnd ≤ heapReach start limit := by
    rcases effect.extends_ with same | ⟨nonzero, moved, room⟩
    · have same : h.heapEnd = s.kernel.heapEnd := same
      exact ⟨n, by omega, by omega⟩
    · have moved : h.heapEnd = s.kernel.heapEnd + (headerSize + roundRequest size) := moved
      have large := request.le_round.1
      have whole : roundRequest size = (size + 7) % 2 ^ 64 / 8 * 8 := rfl
      refine ⟨n + 3 + (size + 7) % 2 ^ 64 / 8, ?_, ?_⟩
      · simp only [headerSize] at moved
        omega
      · rw [heapReach]
        split <;> simp only [headerSize] at * <;> omega
  refine ⟨⟨blocks', ?_⟩, ⟨held, owned.congr_mem fun query _ upper => ?_, members⟩, shared.below, aligned,
    fun range member => ?_, shared.limit⟩
  · simp only
    rw [Kernel.withHeap_heap _ _ effect.limits.1 effect.limits.2]
    exact effect.rep
  · exact effect.outside query (Or.inl (Nat.lt_of_lt_of_le upper shared.below))
  · simp only at member
    split at member
    · exact shared.ranges range member
    · rcases List.mem_cons.mp member with rfl | old
      · exact ⟨startLe, aligned.choose_spec.2⟩
      · exact shared.ranges range old

end Growing

section Boot

variable {m : Memory} {mbd : MultibootInfo} {mbdStart kernelEnd : ℕ} {entries : List MemoryMap}
  {k : Kernel}

/-- A frame that `pmm_init` left free lies in an available region, and in low memory or behind the
bitmap. -/
theorem free_frame_inside (boot : KernelBoot m mbd kernelEnd entries)
    (fit : RegionsFitWords mbd.memUpper entries)
    (initialized : PmmInitialized m mbd mbdStart kernelEnd entries k.pmm) {f : ℕ}
    (bound : f < k.pmm.pmmMaxBlocks) (free : pmmTestBit k.pmm f = false) :
    (∃ e ∈ entries, e.type = 1 ∧ PageInside f e.addr (e.addr + e.len)) ∧
      (pageSize * (f + 1) ≤ 0x100000 ∨
        kernelEnd + pmmBitmapSizeOf (availableTop 0 entries) ≤ pageSize * f) := by
  obtain ⟨⟨e, member, available, frees⟩, _⟩ := (initialized.free_iff f bound).mp free
  have physical := boot.physical
  have small : pageSize * (64 * (mbd.memUpper % 2 ^ 22 / 256) + 1) ≤ 2 ^ 52 := by
    simp only [pageSize]
    omega
  have ending := Nat.lt_of_lt_of_le (fit e member available) small
  have top : availableTop 0 entries < 2 ^ 52 := by
    refine availableTop_lt_iff.mpr ⟨by decide, fun e member available => ?_⟩
    exact Nat.lt_of_le_of_lt (Nat.mod_le _ _) (Nat.lt_of_lt_of_le (fit e member available) small)
  have size := pmmBitmapSizeOf_lt top.le
  exact ⟨⟨e, member, available, (regionFrees_iff f ending.le).mp frees⟩,
    free_outside_bitmap initialized (by omega) bound free⟩

/-- After booting with room behind the words of the bitmap, the invariant holds. -/
theorem shared_of_booted (boot : KernelBoot m mbd kernelEnd entries)
    (booted : KernelBooted m mbd mbdStart kernelEnd entries k)
    (fit : RegionsFitWords mbd.memUpper entries) :
    SharedMemory k.pmm (heapStart mbd kernelEnd)
      (heapLimitOf kernelEnd (heapStart mbd kernelEnd) entries) ⟨k, [], []⟩ := by
  obtain ⟨noWrap, _⟩ := booted.accepts.initialized boot.hasMap boot.map boot.apart
  have above := (words_le_heapStart_iff boot.map noWrap).mpr fit
  have kernel := boot.kernel
  have physical := boot.physical
  have room := kernelBitmapSize_lt mbd.memUpper
  have limitSmall := heapLimit_small boot booted above
  have start : k.heapEnd = heapStart mbd kernelEnd := booted.heapEnd
  have small : heapStart mbd kernelEnd < 2 ^ 53 ∧ 0 < heapStart mbd kernelEnd := by
    rw [heapStart]
    omega
  refine ⟨⟨[], small.2, .of_lt ?_, .of_lt limitSmall, start.symm, trivial, booted.firstBlock, fun b member => ?_⟩,
    ⟨∅, owned_of_accepts booted.accepts, fun page member => ?_⟩, ?_, ⟨0, start, ?_⟩, fun range member => ?_,
    booted.heapLimit⟩
  · change k.heapEnd < 2 ^ 63
    omega
  · cases member
  · cases member
  · simp only [PmmState.bitsEnd, PmmState.words, booted.pmm.bitmap, booted.pmm.maxBlocks, heapStart]
    omega
  · rw [start, heapReach]
    split <;> omega
  · cases member

/-- In every run of fitting calls after booting with an unshared heap, no page that `pmm_alloc_page`
returned meets a range that `sbrk` returned. -/
theorem allocators_apart (boot : KernelBoot m mbd kernelEnd entries)
    (boots : KernelBoots m mbd mbdStart kernelEnd k) (unshared : HeapUnshared mbd kernelEnd entries)
    {calls : List KernelCall} {s : KernelSystem} (run : Path FittingStep ⟨k, [], []⟩ calls s) :
    s.Apart := by
  have booted := boot.booted boots
  by_cases grows : heapStart mbd kernelEnd < heapReach (heapStart mbd kernelEnd)
      (heapLimitOf kernelEnd (heapStart mbd kernelEnd) entries)
  · obtain ⟨fit, pages⟩ := unshared grows
    have shared := run.invariant (SharedMemory k.pmm _ _) (shared_of_booted boot booted fit)
      fun s call t shared step => by
        obtain ⟨step, fits⟩ := step
        cases step with
        | allocPage => exact shared.allocPage
        | malloc returns => exact shared.malloc (fits _ rfl) returns
    intro page memPage range memRange
    obtain ⟨held, owned, members⟩ := shared.pages
    obtain ⟨f, bound, rfl, free⟩ := owned.frames page (members page memPage)
    obtain ⟨lower, upper⟩ := shared.ranges range memRange
    rw [owned.maxBlocks] at bound
    obtain ⟨⟨e, member, available, inside⟩, low | behind⟩ :=
      free_frame_inside boot fit booted.pmm bound free
    · left
      have kernel := boot.kernel
      simp only [heapStart, pageSize] at lower low ⊢
      omega
    · rcases pages e member available f inside behind with before | after
      · left
        simp only [pageSize] at before ⊢
        omega
      · right
        omega
  · have small : heapStart mbd kernelEnd < 2 ^ 53 ∧ 0 < heapStart mbd kernelEnd := by
      have room := kernelBitmapSize_lt mbd.memUpper
      have kernel := boot.kernel
      have physical := boot.physical
      rw [heapStart]
      omega
    have tight : heapLimitOf kernelEnd (heapStart mbd kernelEnd) entries <
        heapStart mbd kernelEnd + headerSize + 8 := by
      rw [heapReach] at grows
      split at grows
      · assumption
      · simp only [headerSize] at *
        omega
    have start : k.heapEnd = heapStart mbd kernelEnd := booted.heapEnd
    have limit := booted.heapLimit
    have stuck := run.invariant (StuckHeap (heapStart mbd kernelEnd)
      (heapLimitOf kernelEnd (heapStart mbd kernelEnd) entries))
      ⟨⟨small.2, .of_lt (by change k.heapEnd < 2 ^ 63; omega),
        .of_lt (by change k.heapLimit < 2 ^ 63; simp only [headerSize] at tight; omega), start.symm, trivial,
        booted.firstBlock, fun b member => by cases member⟩, limit, rfl⟩
      fun s call t stuck step => stuck.step tight step
    intro page _ range member
    rw [stuck.ranges] at member
    cases member

end Boot

/-- On the sample machine the first page is 0x201000, and a first `malloc(8192)` gets a range that
starts below it and ends behind it. -/
theorem allocators_apart_fails :
    ∃ k s, KernelBoots sampleMemory sampleInfo 0x14F000 0x200000 k ∧
      Path KernelStep ⟨k, [], []⟩ [.allocPage, .malloc 8192] s ∧ ¬s.Apart ∧
      s.pages = [0x201000] ∧ s.ranges = [(0x200FE0, 0x202FF8)] := by
  obtain ⟨k, boots⟩ := sampleBoots
  have booted := sampleKernelBoot.booted boots
  have wf := booted.accepts.wf.1
  have frames : k.pmm.pmmMaxBlocks = 32768 := booted.pmm.maxBlocks
  have used : ∀ f < 513, pmmTestBit k.pmm f = true := by
    intro f small
    rw [← Bool.not_eq_false, booted.pmm.free_iff f (by omega)]
    rintro ⟨_, unreserved⟩
    apply unreserved
    rw [Reserved, sample_bitmapEnd booted]
    simp only [RegionReserves, alignUp, alignDown, pageSize]
    omega
  have free := sample_free booted
  have page : (pmmAllocPage k.pmm).1 = 0x201000 := by
    rcases pmmAllocPage_cases wf with ⟨w, f, bound, address, takes, first⟩ | ⟨_, full⟩
    · have start : w = 0 := by
        rcases first with rfl | ⟨rfl, _⟩
        · exact booted.pmm.hint
        · rfl
      have lowest := takes.lowest 513 (by omega)
      have notFree : ¬513 < f := fun above => by
        rw [lowest above] at free
        cases free
      have notUsed : ¬f < 513 := fun below => by
        have taken := takes.free
        rw [used f below] at taken
        cases taken
      obtain rfl : f = 513 := by omega
      exact address
    · rw [full 513 (by omega)] at free
      cases free
  have heapEnd : k.heapEnd = 0x200FE0 := booted.heapEnd
  have heapLimit : k.heapLimit = 0x8000000 := booted.heapLimit.trans (by decide)
  obtain ⟨u, returns, moved⟩ := @malloc_first
    ({ k with pmm := (pmmAllocPage k.pmm).2 } : Kernel).heap _ 8192 booted.firstBlock (by decide) (by
      simp only [sbrk, Kernel.heap, booted.kernelEnd, heapEnd, heapLimit]
      rw [if_neg (by decide)]) (by simp only [Kernel.heap, heapEnd]; decide)
  have moved : u.heapEnd = 0x202FF8 := moved
  have overlap : ∀ s : KernelSystem, s.pages = [0x201000] ∧ s.ranges = [(0x200FE0, 0x202FF8)] →
      ¬s.Apart := by
    intro s both apart
    have := apart 0x201000 (both.1 ▸ List.mem_singleton_self _) (0x200FE0, 0x202FF8)
      (both.2 ▸ List.mem_singleton_self _)
    simp only [pageSize] at this
    omega
  refine ⟨k, _, boots, .cons (.allocPage _) (.cons (.malloc returns) (.nil _)), overlap _ ⟨?_, ?_⟩, ?_, ?_⟩
  all_goals
    simp only [page, heapEnd, moved]
    rfl

/-- A region that leaves the heap less than a page, and free memory elsewhere. -/
def tightMemory : MemoryMap := ⟨20, 0x100000, 0x101FF8, 1⟩
def remoteMemory : MemoryMap := ⟨20, 0x400000, 0x400000, 1⟩

theorem allocators_apart_sample :
    ∃ k s, KernelBoots (twoEntries tightMemory remoteMemory) { sampleInfo with memUpper := 130048 }
        0x14F000 0x200000 k ∧
      Path FittingStep ⟨k, [], []⟩ [.allocPage, .malloc 100] s ∧ s.ranges ≠ [] ∧ s.Apart := by
  have boot : KernelBoot (twoEntries tightMemory remoteMemory) { sampleInfo with memUpper := 130048 }
      0x200000 [tightMemory, remoteMemory] :=
    ⟨by decide, twoEntries_map (by decide) (by decide), by decide, by decide, by decide⟩
  obtain ⟨k, boots⟩ := boot.boots 0x14F000 (by decide)
  have booted := boot.booted boots
  have heapEnd : k.heapEnd = 0x200FE0 := booted.heapEnd
  have heapLimit : k.heapLimit = 0x201FF8 := booted.heapLimit.trans (by decide)
  obtain ⟨u, returns, moved⟩ := @malloc_first
    ({ k with pmm := (pmmAllocPage k.pmm).2 } : Kernel).heap _ 100 booted.firstBlock (by decide) (by
      simp only [sbrk, Kernel.heap, booted.kernelEnd, heapEnd, heapLimit]
      rw [if_neg (by decide)]) (by simp only [Kernel.heap, heapEnd]; decide)
  have moved : u.heapEnd = 0x201060 := moved
  have run : Path FittingStep ⟨k, [], []⟩ [.allocPage, .malloc 100] _ :=
    .cons ⟨.allocPage _, fun size call => by cases call⟩
      (.cons ⟨.malloc returns, fun size call => by
        cases call
        exact .of_lt (by simp only [Kernel.heap, heapEnd]; decide) (by decide)⟩ (.nil _))
  refine ⟨k, _, boots, run, ?_, allocators_apart boot boots (fun _ => ⟨?_, ?_⟩) run⟩
  · simp only [heapEnd, moved]
    decide
  · intro e member _
    rcases List.mem_cons.mp member with rfl | member
    · decide
    · rw [List.mem_singleton.mp member]
      decide
  · intro e member _ f inside behind
    have reach : heapReach (heapStart { sampleInfo with memUpper := 130048 } 0x200000)
        (heapLimitOf 0x200000 (heapStart { sampleInfo with memUpper := 130048 } 0x200000)
          [tightMemory, remoteMemory]) = 0x201FF8 := by decide
    have size : pmmBitmapSizeOf (availableTop 0 [tightMemory, remoteMemory]) = 4096 := by decide
    rw [reach]
    rw [size] at behind
    right
    simp only [PageInside, pageSize] at inside behind ⊢
    rcases List.mem_cons.mp member with rfl | member
    · simp only [tightMemory] at inside
      omega
    · rw [List.mem_singleton.mp member] at inside
      simp only [remoteMemory] at inside
      omega

end RaryOS.Soundness
