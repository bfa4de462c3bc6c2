import RaryOS.Core.Path
import RaryOS.Proofs.KernelInit
import RaryOS.Soundness.PmmInitFree

/-! # Where the heap starts

`kernel_main` computes the size of the bitmap from `mem_upper`, `pmm_init` from the highest available
address. The first leaves out the rounding to whole pages and the megabyte below 1 MiB, so the heap
may start inside the bitmap; it does not exactly when every available region ends early enough.
-/

namespace RaryOS.Soundness

open RaryOS.Core RaryOS.Model

/-- A call of `sbrk` with a positive increment. -/
def SbrkStep (h : KernelHeap) (increment : ℕ) (t : KernelHeap) : Prop :=
  0 < increment ∧ increment < 2 ^ 63 ∧ t = (sbrk h increment).2

/-- The heap starts at or above the end of the bitmap, and no range that `sbrk` ever returns for a
positive increment overlaps the bitmap. -/
def HeapClear (k : Kernel) : Prop :=
  k.pmm.pmmBitmap + k.pmm.pmmBitmapSize ≤ k.heapEnd ∧
    ∀ increments h, Path SbrkStep k.heap increments h → ∀ increment, 0 < increment →
      increment < 2 ^ 63 → (sbrk h increment).1 ≠ sbrkFailed →
        ∀ x, k.pmm.pmmBitmap ≤ x → x < k.pmm.pmmBitmap + k.pmm.pmmBitmapSize →
          ¬((sbrk h increment).1 ≤ x ∧ x < (sbrk h increment).1 + increment)

/-- Every available region ends before one page past the memory that `mem_upper` accounts for, in
units of the 128 MiB that one page of bitmap describes. -/
def RegionsFit (memUpper : ℕ) (entries : List MemoryMap) : Prop :=
  ∀ e ∈ entries, e.type = 1 →
    e.addr + e.len < pageSize * (8 * pageSize * (memUpper % 2 ^ 22 / 131072) + 1)

/-- The same in units of the 64 frames that one word of the bitmap describes. -/
def RegionsFitWords (memUpper : ℕ) (entries : List MemoryMap) : Prop :=
  ∀ e ∈ entries, e.type = 1 → e.addr + e.len < pageSize * (64 * (memUpper % 2 ^ 22 / 256) + 1)

theorem availableTop_lt_iff {top bound : ℕ} {entries : List MemoryMap} :
    availableTop top entries < bound ↔
      top < bound ∧ ∀ e ∈ entries, e.type = 1 → (e.addr + e.len) % 2 ^ 64 < bound := by
  induction entries generalizing top with
  | nil => simp [availableTop]
  | cons e rest ih =>
    rw [availableTop, ih, List.forall_mem_cons]
    by_cases available : e.type = 1
    · simp only [available, true_and, forall_const]
      split <;> constructor
      · rintro ⟨first, rest⟩
        exact ⟨by omega, first, rest⟩
      · rintro ⟨_, first, rest⟩
        exact ⟨first, rest⟩
      · rintro ⟨first, rest⟩
        exact ⟨first, by omega, rest⟩
      · rintro ⟨first, _, rest⟩
        exact ⟨first, rest⟩
    · simp only [available, false_and, if_false, false_imp_iff, true_and]

section Boot

variable {m : Memory} {mbd : MultibootInfo} {mbdStart kernelEnd : ℕ} {entries : List MemoryMap}
  {k : Kernel}

/-- Without wraparound the highest available address lies below a bound when every available region ends below it. -/
theorem availableTop_lt_iff_ends (map : MapEntries m mbd.mmapEnd mbd.mmapAddr entries)
    (noWrap : ∀ e ∈ entries, e.NoWrap) {bound : ℕ} (positive : 0 < bound) :
    availableTop 0 entries < bound ↔ ∀ e ∈ entries, e.type = 1 → e.addr + e.len < bound := by
  rw [availableTop_lt_iff]
  constructor
  · rintro ⟨_, ends⟩ e member available
    have bounds := map.bounds e member
    have exact_ := noWrap e member available
    have := ends e member available
    omega
  · intro fit
    exact ⟨positive, fun e member available => Nat.lt_of_le_of_lt (Nat.mod_le _ _) (fit e member available)⟩

/-- The heap starts behind the bitmap exactly when the available regions fit. -/
theorem bitmap_le_heapStart_iff (map : MapEntries m mbd.mmapEnd mbd.mmapAddr entries)
    (noWrap : ∀ e ∈ entries, e.NoWrap) :
    pmmBitmapSizeOf (availableTop 0 entries) ≤ kernelBitmapSize mbd.memUpper ↔
      RegionsFit mbd.memUpper entries := by
  have sizes (top : ℕ) : pmmBitmapSizeOf top ≤ kernelBitmapSize mbd.memUpper ↔
      top < pageSize * (8 * pageSize * (mbd.memUpper % 2 ^ 22 / 131072) + 1) := by
    simp only [pmmBitmapSizeOf, pmmMaxBlocksOf, alignDown, kernelBitmapSize_eq, pageSize]
    omega
  rw [sizes, availableTop_lt_iff_ends map noWrap (by simp only [pageSize]; omega)]
  rfl

/-- It starts behind the words of the bitmap that `pmm_alloc_page` searches exactly when the regions fit these. -/
theorem words_le_heapStart_iff (map : MapEntries m mbd.mmapEnd mbd.mmapAddr entries)
    (noWrap : ∀ e ∈ entries, e.NoWrap) :
    8 * ((pmmMaxBlocksOf (availableTop 0 entries) + 63) / 64) ≤ kernelBitmapSize mbd.memUpper ↔
      RegionsFitWords mbd.memUpper entries := by
  have sizes (top : ℕ) : 8 * ((pmmMaxBlocksOf top + 63) / 64) ≤ kernelBitmapSize mbd.memUpper ↔
      top < pageSize * (64 * (mbd.memUpper % 2 ^ 22 / 256) + 1) := by
    simp only [pmmMaxBlocksOf, alignDown, kernelBitmapSize_eq, pageSize]
    omega
  rw [sizes, availableTop_lt_iff_ends map noWrap (by simp only [pageSize]; omega)]
  rfl

/-- With a limit of that size, positive increments only move the break up. -/
private theorem sbrk_run {h t : KernelHeap} {increments : List ℕ} (endSmall : h.heapEnd < 2 ^ 63)
    (limitSmall : h.heapLimit < 2 ^ 63) (run : Path SbrkStep h increments t) :
    h.heapEnd ≤ t.heapEnd ∧ t.heapEnd < 2 ^ 63 := by
  refine (run.invariant (fun t => h.heapEnd ≤ t.heapEnd ∧ t.heapEnd < 2 ^ 63 ∧
    t.heapLimit = h.heapLimit) ⟨Nat.le_refl _, endSmall, rfl⟩ ?_).imp_right And.left
  rintro s increment t ⟨above, small, limit⟩ ⟨_, bound, rfl⟩
  rcases sbrk_cases increment (Nat.lt_trans small (by decide)) (by omega) (by omega) with refused | ⟨granted, room⟩
  · rw [refused]
    exact ⟨above, small, limit⟩
  · rw [granted]
    exact ⟨Nat.le_trans above (Nat.le_add_right _ _), by simp only; omega, limit⟩

/-- With room for the words of the bitmap all memory, and so the limit of the heap, lies far below 2^63. -/
theorem heapLimit_small (boot : KernelBoot m mbd kernelEnd entries)
    (booted : KernelBooted m mbd mbdStart kernelEnd entries k)
    (fits : 8 * ((pmmMaxBlocksOf (availableTop 0 entries) + 63) / 64) ≤ kernelBitmapSize mbd.memUpper) :
    k.heapLimit < 2 ^ 63 := by
  have size := kernelBitmapSize_lt mbd.memUpper
  have physical := boot.physical
  have top : availableTop 0 entries < 2 ^ 53 := by
    simp only [pmmMaxBlocksOf, alignDown, pageSize] at fits
    omega
  rw [booted.heapLimit]
  refine Nat.lt_of_le_of_lt (heapLimitOf_le (2 ^ 53) ?_ top.le) (by decide)
  rw [heapStart]
  omega

/-- The heap that `kernel_main` sets up is clear of the bitmap exactly when every available region
ends before what `mem_upper` accounts for. -/
theorem heap_clear_iff (boot : KernelBoot m mbd kernelEnd entries)
    (boots : KernelBoots m mbd mbdStart kernelEnd k) :
    HeapClear k ↔ RegionsFit mbd.memUpper entries := by
  have booted := boot.booted boots
  obtain ⟨noWrap, _⟩ := booted.accepts.initialized boot.hasMap boot.map boot.apart
  have start : k.pmm.pmmBitmap + k.pmm.pmmBitmapSize ≤ k.heapEnd ↔
      pmmBitmapSizeOf (availableTop 0 entries) ≤ kernelBitmapSize mbd.memUpper := by
    rw [booted.pmm.bitmap, booted.pmm.bitmapSize, booted.heapEnd, heapStart]
    omega
  rw [← bitmap_le_heapStart_iff boot.map noWrap, ← start]
  refine ⟨And.left, fun above => ⟨above, fun increments h run increment positive bound granted x _ inside => ?_⟩⟩
  have size := kernelBitmapSize_lt mbd.memUpper
  have physical := boot.physical
  have endSmall : k.heapEnd < 2 ^ 63 := by
    rw [booted.heapEnd, heapStart]
    omega
  have limitSmall := heapLimit_small boot booted ((words_le_bitmapSize _).trans (start.mp above))
  obtain ⟨moved, small⟩ := sbrk_run (h := k.heap) endSmall limitSmall run
  have moved : k.heapEnd ≤ h.heapEnd := moved
  rcases sbrk_cases increment (Nat.lt_trans small (by decide)) (by omega) (by omega) with refused | ⟨result, _⟩
  · exact absurd (congrArg Prod.fst refused) granted
  · rw [result]
    omega

end Boot

/-- The sample machine has 128 MiB of memory, one page of bitmap, and 32 bytes less for it. -/
theorem sampleKernelBoot : KernelBoot sampleMemory sampleInfo 0x200000 [lowMemory, highMemory] where
  hasMap := by decide
  map := sampleMap
  image := by decide
  kernel := by decide
  physical := by decide

theorem sampleBoots : ∃ k, KernelBoots sampleMemory sampleInfo 0x14F000 0x200000 k :=
  sampleKernelBoot.boots _ (by decide)

section Sample

variable {k : Kernel} (booted : KernelBooted sampleMemory sampleInfo 0x14F000 0x200000 [lowMemory, highMemory] k)

include booted

theorem sample_bitmapEnd : k.pmm.pmmBitmap + k.pmm.pmmBitmapSize = 0x201000 := by
  rw [booted.pmm.bitmap, booted.pmm.bitmapSize, sampleBitmapSize]

/-- The frame behind the bitmap is free. -/
theorem sample_free : pmmTestBit k.pmm 513 = false := by
  have frames : k.pmm.pmmMaxBlocks = 32768 := booted.pmm.maxBlocks
  rw [booted.pmm.free_iff 513 (by omega), Reserved, sample_bitmapEnd booted]
  decide

end Sample

/-- There the first extension of the heap returns the last 32 bytes of the bitmap. -/
theorem heap_clear_sample :
    ∃ k, KernelBoots sampleMemory sampleInfo 0x14F000 0x200000 k ∧ ¬HeapClear k ∧
      k.pmm.pmmBitmap + k.pmm.pmmBitmapSize = 0x201000 ∧ (sbrk k.heap 4096).1 = 0x200FE0 := by
  obtain ⟨k, boots⟩ := sampleBoots
  have booted := sampleKernelBoot.booted boots
  have bitmapEnd := sample_bitmapEnd booted
  have heapEnd : k.heapEnd = 0x200FE0 := booted.heapEnd
  have heapLimit : k.heapLimit = 0x8000000 := booted.heapLimit.trans (by decide)
  refine ⟨k, boots, fun clear => ?_, bitmapEnd, ?_⟩
  · have := clear.1
    omega
  · simp only [sbrk, Kernel.heap, booted.kernelEnd, heapEnd, heapLimit]
    rw [if_neg (by decide)]

/-- With 129 MiB reported above the first megabyte the same map has room for the bitmap. -/
theorem heap_clear_iff_sample :
    ∃ k, KernelBoots sampleMemory { sampleInfo with memUpper := 132096 } 0x14F000 0x200000 k ∧
      HeapClear k := by
  have boot : KernelBoot sampleMemory { sampleInfo with memUpper := 132096 } 0x200000
      [lowMemory, highMemory] := ⟨by decide, sampleMap, by decide, by decide, by decide⟩
  obtain ⟨k, boots⟩ := boot.boots 0x14F000 (by decide)
  refine ⟨k, boots, (heap_clear_iff boot boots).mpr ?_⟩
  intro e member available
  rcases List.mem_cons.mp member with rfl | member
  · decide
  · rw [List.mem_singleton.mp member]
    decide

end RaryOS.Soundness
