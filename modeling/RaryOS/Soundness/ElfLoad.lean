import RaryOS.Core.Ascending
import RaryOS.Proofs.Elf
import RaryOS.Soundness.AllocatorsApart

/-! # Where the user program lands

`jump_to_user` loads the program after `kernel_main` has set up both allocators, at the addresses the
program was linked for. Neither allocator knows of them. Before the load the run consists of
`pmm_alloc_page` calls and of `sbrk` calls that move the break up, so the pages handed out are the
lowest frames that `pmm_init` left free, and the ranges handed out are all bytes from the start of the
heap to the break.
-/

namespace RaryOS.Soundness

open RaryOS.Core RaryOS.Model

inductive AllocCall where
  | allocPage
  | sbrk (increment : ℕ)
deriving DecidableEq, Repr

/-- One allocation. `NULL` is no page, and a refused `sbrk` returns no range. -/
inductive AllocStep : KernelSystem → AllocCall → KernelSystem → Prop
  | allocPage (s : KernelSystem) : AllocStep s .allocPage
      { s with
        kernel := { s.kernel with pmm := (pmmAllocPage s.kernel.pmm).2 }
        pages := if (pmmAllocPage s.kernel.pmm).1 = 0 then s.pages
          else (pmmAllocPage s.kernel.pmm).1 :: s.pages }
  | sbrk (s : KernelSystem) {increment : ℕ} : 0 < increment → increment < 2 ^ 63 →
      AllocStep s (.sbrk increment)
      { s with
        kernel := s.kernel.withHeap (sbrk s.kernel.heap increment).2
        ranges := if (sbrk s.kernel.heap increment).1 = sbrkFailed then s.ranges
          else ((sbrk s.kernel.heap increment).1, (sbrk s.kernel.heap increment).1 + increment) ::
            s.ranges }

/-- Loading the file writes no byte of the bitmap, of a page handed out or of a range handed out. -/
def LoadApart (file : Memory) (s : KernelSystem) : Prop :=
  ∀ x ∈ elfWrites file s.kernel.pmm.mem,
    ¬(s.kernel.pmm.pmmBitmap ≤ x ∧ x < s.kernel.pmm.pmmBitmap + s.kernel.pmm.pmmBitmapSize) ∧
    (∀ page ∈ s.pages, ¬(page ≤ x ∧ x < page + pageSize)) ∧
    ∀ range ∈ s.ranges, ¬(range.1 ≤ x ∧ x < range.2)

/-- A frame that the allocator may hand out. -/
def FreeFrame (s : PmmState) (f : ℕ) : Prop := f < s.pmmMaxBlocks ∧ pmmTestBit s f = false

instance (s : PmmState) : DecidablePred (FreeFrame s) := fun _ => inferInstanceAs (Decidable (_ ∧ _))

/-- No byte of a segment lies in the bitmap, in one of the first `n` frames that `pmm_init` left free,
or between the start of the heap and the break. -/
def LoadClear (file : Memory) (mbd : MultibootInfo) (kernelEnd : ℕ) (entries : List MemoryMap)
    (init : PmmState) (n heapEnd : ℕ) : Prop :=
  ∀ ph ∈ loadSegments file, ∀ x, ph.Covers x →
    ¬(kernelEnd ≤ x ∧ x < kernelEnd + pmmBitmapSizeOf (availableTop 0 entries)) ∧
    (FreeFrame init (x / pageSize) → n ≤ Nat.count (FreeFrame init) (x / pageSize)) ∧
    ¬(heapStart mbd kernelEnd ≤ x ∧ x < heapEnd)

/-- The state after `n` page allocations: the frames used are those of `init` and the first `n` free
ones, whose pages were handed out, and the ranges handed out lie without a gap below the break. -/
structure Allocated (init : PmmState) (start limit n : ℕ) (s : KernelSystem) : Prop where
  wf : PmmWf s.kernel.pmm
  hint : HintBelow s.kernel.pmm
  bitmap : s.kernel.pmm.pmmBitmap = init.pmmBitmap
  bitmapSize : s.kernel.pmm.pmmBitmapSize = init.pmmBitmapSize
  maxBlocks : s.kernel.pmm.pmmMaxBlocks = init.pmmMaxBlocks
  used : ∀ f < init.pmmMaxBlocks,
    pmmTestBit s.kernel.pmm f = true ↔ pmmTestBit init f = true ∨ InFirst (FreeFrame init) n f
  pages : ∀ page, page ∈ s.pages ↔ ∃ f, InFirst (FreeFrame init) n f ∧ page = pageSize * f
  heap : s.kernel.heapLimit = limit ∧ start ≤ s.kernel.heapEnd ∧ s.kernel.heapEnd < 2 ^ 53
  ranges : ∀ x, (∃ range ∈ s.ranges, range.1 ≤ x ∧ x < range.2) ↔ start ≤ x ∧ x < s.kernel.heapEnd

section Steps

variable {init : PmmState} {start limit n : ℕ} {s : KernelSystem}

/-- An allocation takes the next free frame in ascending order. -/
theorem Allocated.allocPage (zero : ¬FreeFrame init 0) (allocated : Allocated init start limit n s) :
    Allocated init start limit (n + 1)
      { s with
        kernel := { s.kernel with pmm := (pmmAllocPage s.kernel.pmm).2 }
        pages := if (pmmAllocPage s.kernel.pmm).1 = 0 then s.pages
          else (pmmAllocPage s.kernel.pmm).1 :: s.pages } := by
  have geometry := allocated.maxBlocks
  rcases pmmAllocPage_lowest allocated.wf allocated.hint with
    ⟨w, f, bound, address, takes, lower⟩ | ⟨exhausted, full⟩
  · have unused := takes.free
    rw [← Bool.not_eq_true, allocated.used f (by omega), not_or, Bool.not_eq_true] at unused
    have free : FreeFrame init f := ⟨by omega, unused.1⟩
    have next := inFirst_succ_of_lowest free unused.2 fun g less other =>
      ((allocated.used g other.1).mp (lower g less)).resolve_left (by rw [other.2]; decide)
    have nonzero : (pmmAllocPage s.kernel.pmm).1 ≠ 0 := by
      rw [address]
      intro null
      obtain rfl : f = 0 := by
        simp only [pageSize] at null
        omega
      exact zero free
    have update := takes.update
    refine ⟨takes.wf allocated.wf bound, takes.hintBelow lower, update.bitmap.trans allocated.bitmap,
      update.bitmapSize.trans allocated.bitmapSize, update.maxBlocks.trans geometry, ?_, ?_,
      allocated.heap, allocated.ranges⟩
    · intro g small
      rw [update.bits, Bool.or_eq_true, decide_eq_true_iff, allocated.used g small, next, eq_comm]
      tauto
    · intro page
      rw [if_neg nonzero, List.mem_cons, allocated.pages, address]
      simp only [next, or_and_right, exists_or, exists_eq_left]
  · have all := inFirst_succ_of_all fun f (free : FreeFrame init f) =>
      ((allocated.used f free.1).mp (full f (geometry.symm ▸ free.1))).resolve_left
        (by rw [free.2]; decide)
    simp only [exhausted, if_true]
    refine ⟨allocated.wf, allocated.hint, allocated.bitmap, allocated.bitmapSize, geometry, ?_, ?_,
      allocated.heap, allocated.ranges⟩
    · intro f bound
      rw [allocated.used f bound, all]
    · intro page
      rw [allocated.pages]
      simp only [all]

/-- The new range begins where the last one ended. -/
theorem Allocated.sbrk (small : limit < 2 ^ 53)
    (allocated : Allocated init start limit n s) {increment : ℕ} (bound : increment < 2 ^ 63) :
    Allocated init start limit n
      { s with
        kernel := s.kernel.withHeap (sbrk s.kernel.heap increment).2
        ranges := if (sbrk s.kernel.heap increment).1 = sbrkFailed then s.ranges
          else ((sbrk s.kernel.heap increment).1, (sbrk s.kernel.heap increment).1 + increment) ::
            s.ranges } := by
  obtain ⟨limitEq, above, below⟩ := allocated.heap
  have top : s.kernel.heap.heapEnd = s.kernel.heapEnd := rfl
  rcases @sbrk_cases s.kernel.heap increment (by omega) (by omega) (by omega) with
    refused | ⟨granted, room⟩
  · rw [refused, if_pos rfl]
    exact ⟨allocated.wf, allocated.hint, allocated.bitmap, allocated.bitmapSize, allocated.maxBlocks,
      allocated.used, allocated.pages, allocated.heap, allocated.ranges⟩
  · have room : s.kernel.heapEnd + increment ≤ s.kernel.heapLimit := room
    have success : s.kernel.heap.heapEnd ≠ sbrkFailed := by
      rw [top, sbrkFailed]
      omega
    rw [granted, if_neg success]
    refine ⟨allocated.wf, allocated.hint, allocated.bitmap, allocated.bitmapSize, allocated.maxBlocks,
      allocated.used, allocated.pages, ⟨limitEq, ?_, ?_⟩, fun x => ?_⟩
    · change start ≤ s.kernel.heapEnd + increment
      omega
    · change s.kernel.heapEnd + increment < 2 ^ 53
      omega
    · have old := allocated.ranges x
      rw [List.exists_mem_cons_iff, old]
      change s.kernel.heapEnd ≤ x ∧ x < s.kernel.heapEnd + increment ∨ _ ↔
        start ≤ x ∧ x < s.kernel.heapEnd + increment
      omega

end Steps

section Boot

variable {m : Memory} {mbd : MultibootInfo} {mbdStart kernelEnd : ℕ} {entries : List MemoryMap}
  {k : Kernel} {calls : List AllocCall} {s : KernelSystem}

/-- What a run of allocations after booting has handed out. -/
theorem allocated_of_run (boot : KernelBoot m mbd kernelEnd entries)
    (bounded : ∀ e ∈ entries, e.addr + e.len ≤ 2 ^ 52)
    (boots : KernelBoots m mbd mbdStart kernelEnd k) (run : Path AllocStep ⟨k, [], []⟩ calls s) :
    Allocated k.pmm (heapStart mbd kernelEnd)
      (heapLimitOf kernelEnd (heapStart mbd kernelEnd) entries) (calls.count .allocPage) s := by
  have booted := boot.booted boots
  have start : heapStart mbd kernelEnd < 2 ^ 53 := by
    have room := kernelBitmapSize_lt mbd.memUpper
    have physical := boot.physical
    rw [heapStart]
    omega
  have top : availableTop 0 entries ≤ 2 ^ 53 - 1 := by
    apply availableTop_le _ (by omega)
    intro e member
    have bound := bounded e member
    omega
  have limit : heapLimitOf kernelEnd (heapStart mbd kernelEnd) entries ≤ 2 ^ 53 - 1 :=
    heapLimitOf_le _ (Nat.le_sub_one_of_lt start) top
  have zero : ¬FreeFrame k.pmm 0 := by
    rintro ⟨positive, free⟩
    rw [(owned_of_accepts booted.accepts).zero positive] at free
    cases free
  apply run.snoc_induction (fun calls s => Allocated k.pmm _ _ (calls.count .allocPage) s)
  · refine ⟨booted.accepts.wf.1, fun g below => ?_, rfl, rfl, rfl, fun f _ => ?_, fun page => ?_,
      ⟨booted.heapLimit, booted.heapEnd.ge, booted.heapEnd ▸ start⟩, fun x => ?_⟩
    · rw [booted.pmm.hint] at below
      omega
    · simp only [List.count_nil, not_inFirst_zero, or_false]
    · simp only [List.count_nil, not_inFirst_zero, false_and, exists_false, List.not_mem_nil]
    · simp only [List.not_mem_nil, false_and, exists_false, booted.heapEnd, false_iff]
      omega
  · intro calls mid call t _ allocated step
    cases step with
    | allocPage =>
      rw [List.count_append, List.count_singleton_self]
      exact allocated.allocPage zero
    | @sbrk increment _ bound =>
      have none : [AllocCall.sbrk increment].count .allocPage = 0 :=
        List.count_eq_zero_of_not_mem fun member => by cases List.mem_singleton.mp member
      rw [List.count_append, none, Nat.add_zero]
      exact allocated.sbrk (by omega) bound

/-- After any run of allocations, loading a file writes nothing that either allocator uses or has
handed out exactly when its segments are clear of the bitmap, of as many free frames as there were
page allocations, and of the heap below the break. -/
theorem elf_load_apart_iff (boot : KernelBoot m mbd kernelEnd entries)
    (bounded : ∀ e ∈ entries, e.addr + e.len ≤ 2 ^ 52)
    (boots : KernelBoots m mbd mbdStart kernelEnd k) (run : Path AllocStep ⟨k, [], []⟩ calls s)
    (file : Memory) :
    LoadApart file s ↔
      LoadClear file mbd kernelEnd entries k.pmm (calls.count .allocPage) s.kernel.heapEnd := by
  have booted := boot.booted boots
  have allocated := allocated_of_run boot bounded boots run
  have pages (x : ℕ) : (∀ page ∈ s.pages, ¬(page ≤ x ∧ x < page + pageSize)) ↔
      (FreeFrame k.pmm (x / pageSize) →
        calls.count .allocPage ≤ Nat.count (FreeFrame k.pmm) (x / pageSize)) := by
    constructor
    · intro apart free
      refine Nat.le_of_not_lt fun first => apart (pageSize * (x / pageSize)) ?_ ?_
      · exact (allocated.pages _).mpr ⟨_, ⟨free, first⟩, rfl⟩
      · simp only [pageSize]
        omega
    · rintro late page member ⟨lower, upper⟩
      obtain ⟨f, ⟨free, first⟩, rfl⟩ := (allocated.pages page).mp member
      obtain rfl : f = x / pageSize := by
        simp only [pageSize] at lower upper ⊢
        omega
      exact absurd (late free) (by omega)
  have ranges (x : ℕ) : (∀ range ∈ s.ranges, ¬(range.1 ≤ x ∧ x < range.2)) ↔
      ¬(heapStart mbd kernelEnd ≤ x ∧ x < s.kernel.heapEnd) := by
    rw [← allocated.ranges x]
    push Not
    rfl
  have bytes (x : ℕ) : x ∈ elfWrites file s.kernel.pmm.mem ↔ ∃ ph ∈ loadSegments file, ph.Covers x :=
    mem_elfWrites _ _ x
  simp only [LoadApart, LoadClear, bytes, pages, ranges, allocated.bitmap, allocated.bitmapSize,
    booted.pmm.bitmap, booted.pmm.bitmapSize]
  constructor
  · intro apart ph member x covers
    exact apart x ⟨ph, member, covers⟩
  · rintro clear x ⟨ph, member, covers⟩
    exact clear ph member x covers

end Boot

/-- A file with one segment: the byte 0x90 at 0x400000. -/
def sampleElf : Memory := fun offset =>
  ([(0, 0x7F), (1, 0x45), (2, 0x4C), (3, 0x46), (18, 0x3E), (32, 0x40), (54, 0x38), (56, 1), (0x40, 1),
    (0x48, 0x78), (0x52, 0x40), (0x60, 1), (0x68, 1), (0x78, 0x90)].lookup offset).getD 0

theorem sampleElf_segments : loadSegments sampleElf = [⟨1, 0, 0x78, 0x400000, 1, 1⟩] := by decide

/-- It covers one byte. -/
theorem sampleElf_covers {ph : Elf64Phdr} (member : ph ∈ loadSegments sampleElf) {x : ℕ} :
    ph.Covers x ↔ x = 0x400000 := by
  rw [sampleElf_segments, List.mem_singleton] at member
  subst member
  constructor
  · rintro ⟨j, bound, rfl⟩
    simp only [Nat.lt_one_iff, max_self] at bound
    subst bound
    decide
  · rintro rfl
    exact ⟨0, by decide, by decide⟩

/-- On the sample machine an extension of the heap by 2 MiB makes the program overwrite it. -/
theorem elf_load_apart_fails :
    ∃ k s, KernelBoots sampleMemory sampleInfo 0x14F000 0x200000 k ∧
      Path AllocStep ⟨k, [], []⟩ [.sbrk 0x200000] s ∧ s.ranges = [(0x200FE0, 0x400FE0)] ∧
      0x400000 ∈ elfWrites sampleElf s.kernel.pmm.mem ∧ ¬LoadApart sampleElf s := by
  obtain ⟨k, boots⟩ := sampleBoots
  have booted := sampleKernelBoot.booted boots
  have heapEnd : k.heapEnd = 0x200FE0 := booted.heapEnd
  have heapLimit : k.heapLimit = 0x8000000 := booted.heapLimit.trans (by decide)
  have granted : (sbrk k.heap 0x200000).1 = 0x200FE0 := by
    simp only [sbrk, Kernel.heap, booted.kernelEnd, heapEnd, heapLimit]
    rw [if_neg (by decide)]
  have written (m : Memory) : 0x400000 ∈ elfWrites sampleElf m :=
    (mem_elfWrites _ _ _).mpr ⟨_, sampleElf_segments ▸ List.mem_singleton_self _, 0, by decide, by decide⟩
  have overlap : ∀ s : KernelSystem, s.ranges = [(0x200FE0, 0x400FE0)] → ¬LoadApart sampleElf s := by
    intro s ranges apart
    have inside := (apart 0x400000 (written _)).2.2 (0x200FE0, 0x400FE0)
      (ranges ▸ List.mem_singleton_self _)
    exact inside (by decide)
  refine ⟨k, _, boots, .cons (.sbrk _ (by decide) (by decide)) (.nil _), ?_, written _, overlap _ ?_⟩
  all_goals
    simp only [granted]
    rw [if_neg (by decide)]

theorem elf_load_apart_iff_sample :
    ∃ k s, KernelBoots sampleMemory sampleInfo 0x14F000 0x200000 k ∧
      Path AllocStep ⟨k, [], []⟩ [.allocPage, .sbrk 4096] s ∧ LoadApart sampleElf s := by
  obtain ⟨k, boots⟩ := sampleBoots
  have booted := sampleKernelBoot.booted boots
  have heapEnd : k.heapEnd = 0x200FE0 := booted.heapEnd
  have frames : k.pmm.pmmMaxBlocks = 32768 := booted.pmm.maxBlocks
  have free : FreeFrame k.pmm 513 := ⟨by omega, sample_free booted⟩
  have run : Path AllocStep ⟨k, [], []⟩ [.allocPage, .sbrk 4096] _ :=
    .cons (.allocPage _) (.cons (.sbrk _ (by decide) (by decide)) (.nil _))
  refine ⟨k, _, boots, run,
    (elf_load_apart_iff sampleKernelBoot (by decide) boots run sampleElf).mpr fun ph member x covers => ?_⟩
  obtain rfl := (sampleElf_covers member).mp covers
  refine ⟨by decide, fun _ => ?_, ?_⟩
  · exact Nat.one_le_iff_ne_zero.mpr (Nat.count_ne_iff_exists.mpr ⟨513, by decide, free⟩)
  · simp only [Kernel.withHeap, Kernel.heap, sbrk, heapEnd]
    split <;> simp only [not_and] <;> omega

end RaryOS.Soundness
