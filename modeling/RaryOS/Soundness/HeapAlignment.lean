import RaryOS.Soundness.HeapPlacement
import RaryOS.Soundness.HeapRuns

/-! # The alignment of what `malloc` returns

Sizes are rounded up to multiples of 8 and a header has 24 bytes, so the blocks lie at multiples of 8 from the
start of the heap. But `kernel_main` puts the start one byte of bitmap behind the kernel for every 32 KiB of
memory, and rounds nothing: the pointers are aligned exactly when the size of that bitmap is, unless the heap is
too small for a block at all.
-/

namespace RaryOS.Soundness

open RaryOS.Core RaryOS.Model

/-- The block lies at a multiple of 8 from the start, and its size is one. -/
def AlignedFrom (start : ℕ) (b : Block) : Prop := b.addr % 8 = start % 8 ∧ b.size % 8 = 0

/-- Whatever served calls have been made, `malloc` returns `NULL` or a multiple of 8. -/
def AlwaysAligned (k : Kernel) : Prop :=
  ∀ calls s, Path (ServedStep k.heapEnd) ⟨k.heap, fun _ => none⟩ calls s → ∀ size < 2 ^ 64,
    RequestServed s.heap size (HeapServes s.heap size) → ∀ fuel ptr h',
      malloc sbrk fuel s.heap size = some (ptr, h') → ptr ≠ 0 → ptr % 8 = 0

section Blocks

variable {start size ptr : ℕ} {h : KernelHeap} {blocks blocks' : List Block}

theorem carve_aligned {b : Block} (size request : ℕ) (aligned : AlignedFrom start b) {c : Block}
    (member : c ∈ b.carve (roundRequest size) request) : AlignedFrom start c := by
  obtain ⟨place, length⟩ := aligned
  have round := roundRequest_mod size
  rw [Block.carve] at member
  split at member
  · next room =>
    simp only [headerSize] at room member
    rcases List.mem_cons.mp member with rfl | second
    · exact ⟨place, round⟩
    · rw [List.mem_singleton.mp second]
      constructor <;> simp only <;> omega
  · rw [List.mem_singleton.mp member]
    exact ⟨place, length⟩

/-- The break is as aligned as the start. -/
theorem tiles_aligned {stop : ℕ} (tiles : BlockTiles start blocks stop)
    (aligned : ∀ b ∈ blocks, AlignedFrom start b) : stop % 8 = start % 8 := by
  cases blocks using List.reverseRecOn with
  | nil => exact congrArg (· % 8) tiles.symm
  | append_singleton blocks b =>
    obtain ⟨mid, _, rfl, _, rfl⟩ := Tiles.append_iff.mp tiles
    obtain ⟨place, length⟩ := aligned b (List.mem_append_right _ (List.mem_singleton_self b))
    simp only [Block.stop, headerSize]
    omega

theorem sweepFrom_aligned {b : Block} {rest : List Block} (aligned : ∀ c ∈ b :: rest, AlignedFrom start c) :
    ∀ c ∈ sweepFrom b rest, AlignedFrom start c := by
  induction rest generalizing b with
  | nil => exact aligned
  | cons c rest ih =>
    obtain ⟨first, second, later⟩ := List.forall_mem_cons.mp aligned |>.imp_right List.forall_mem_cons.mp
    rw [sweepFrom]
    split
    · refine ih (List.forall_mem_cons.mpr ⟨⟨first.1, ?_⟩, later⟩)
      have sizes := And.intro first.2 second.2
      simp only [Block.merge, headerSize]
      omega
    · exact List.forall_mem_cons.mpr ⟨first, ih (List.forall_mem_cons.mpr ⟨second, later⟩)⟩

theorem freeBlocks_aligned (ptr : ℕ) (aligned : ∀ b ∈ blocks, AlignedFrom start b) :
    ∀ b ∈ freeBlocks ptr blocks, AlignedFrom start b := by
  have released : ∀ b ∈ release (MemoryBlock.fromData ptr) blocks, AlignedFrom start b := by
    intro b member
    obtain ⟨c, memC, rfl⟩ := List.mem_map.mp member
    have same := aligned c memC
    split <;> exact same
  rw [freeBlocks]
  split
  · exact aligned
  · cases swept : release (MemoryBlock.fromData ptr) blocks with
    | nil => exact fun b member => absurd member List.not_mem_nil
    | cons b rest => exact sweepFrom_aligned (swept ▸ released)

/-- A call of `malloc` keeps the blocks aligned. -/
theorem malloc_aligned (rep : HeapRep start h blocks) (shape : MallocBlocks h blocks size ptr blocks')
    (aligned : ∀ b ∈ blocks, AlignedFrom start b) : ∀ b ∈ blocks', AlignedFrom start b := by
  cases shape with
  | null => exact aligned
  | @take before after b split =>
    subst split
    have here := aligned b (List.mem_append_right _ List.mem_cons_self)
    intro c member
    simp only [List.mem_append] at member
    rcases member with (first | carved) | last
    · exact aligned c (List.mem_append_left _ first)
    · exact carve_aligned size size here carved
    · exact aligned c (List.mem_append_right _ (List.mem_cons_of_mem _ last))
  | bump =>
    intro c member
    rcases List.mem_append.mp member with old | new
    · exact aligned c old
    · rw [List.mem_singleton.mp new]
      exact ⟨tiles_aligned rep.tiles aligned, roundRequest_mod size⟩

/-- Every edit of the list keeps the blocks aligned. -/
theorem blocksStep_aligned (rep : HeapRep start h blocks) (aligned : ∀ b ∈ blocks, AlignedFrom start b)
    (step : BlocksStep h blocks blocks') : ∀ b ∈ blocks', AlignedFrom start b := by
  cases step with
  | malloc shape => exact malloc_aligned rep shape aligned
  | free ptr => exact freeBlocks_aligned ptr aligned
  | write => exact aligned

end Blocks

/-! ## The heap after booting -/

section Boot

variable {m : Memory} {mbd : MultibootInfo} {mbdStart kernelEnd : ℕ} {k : Kernel}

/-- The end of a region is a word. -/
theorem initHeapBody_limit {mmapEnd mmap : ℕ} {found : Option ℕ}
    (returns : Returns (initHeapBody m kernelEnd mmapEnd) mmap found) : ∀ limit ∈ found, limit < 2 ^ 64 := by
  refine returns.invariant (fun _ => True) (fun found => ∀ limit ∈ found, limit < 2 ^ 64) trivial
    (fun _ _ _ _ => trivial) fun mmap found _ stops limit member => ?_
  rw [initHeapBody] at stops
  split at stops
  · simp only at stops
    split at stops
    · cases stops
      rw [Option.mem_some_iff] at member
      omega
    · cases stops
  · cases stops
    cases member

/-- `init_heap` moves the limit only. -/
theorem initHeap_spec {fuel : ℕ} {k' : Kernel} (limit : k.heapLimit < 2 ^ 64)
    (done : initHeap fuel k mbd = some k') :
    k'.kernelEnd = k.kernelEnd ∧ k'.heapEnd = k.heapEnd ∧ k'.firstBlock = k.firstBlock ∧ k'.heapLimit < 2 ^ 64 := by
  rw [initHeap] at done
  split at done
  · split at done
    · cases done
    · cases done
      exact ⟨rfl, rfl, rfl, limit⟩
    · next found =>
      cases done
      exact ⟨rfl, rfl, rfl, initHeapBody_limit ⟨fuel, found⟩ _ rfl⟩
  · cases done
    exact ⟨rfl, rfl, rfl, Nat.mod_lt _ (by decide)⟩

/-- Whatever the boot information says, the heap starts as far behind the kernel as the bitmap is long. -/
theorem freshHeap_of_boots (boots : KernelBoots m mbd mbdStart kernelEnd k) (kernel : 0x100000 ≤ kernelEnd)
    (physical : kernelEnd < 2 ^ 52) :
    FreshHeap k.heap ∧ k.kernelEnd = kernelEnd ∧ k.heapEnd = kernelEnd + kernelBitmapSize mbd.memUpper := by
  obtain ⟨fuel, ok⟩ := boots
  have room := kernelBitmapSize_lt mbd.memUpper
  have exact64 : (kernelEnd + kernelBitmapSize mbd.memUpper) % 2 ^ 64 = kernelEnd + kernelBitmapSize mbd.memUpper :=
    Nat.mod_eq_of_lt (by omega)
  rw [kernelMainMemory] at ok
  split at ok
  · cases ok
  · cases ok
  · simp only at ok
    split at ok
    · cases ok
    · obtain ⟨k', heap, same⟩ := Option.map_eq_some_iff.mp ok
      cases same
      obtain ⟨end_, heapEnd, first, limit⟩ := initHeap_spec (Nat.mod_lt _ (by decide)) heap
      simp only [exact64] at end_ heapEnd first
      refine ⟨⟨?_, ?_, limit, first⟩, end_, heapEnd⟩
      · change 16 ≤ k.heapEnd
        omega
      · change k.heapEnd < 2 ^ 64
        omega

/-- The blocks after a served run are aligned. -/
theorem served_aligned {h : KernelHeap} (fresh : FreshHeap h) {calls : List HeapCall} {s : MallocSystem}
    (run : Path (ServedStep h.heapEnd) ⟨h, fun _ => none⟩ calls s) :
    ∃ blocks, ServedHeap h s blocks ∧ ∀ b ∈ blocks, AlignedFrom h.heapEnd b :=
  served_run fresh (fun blocks => ∀ b ∈ blocks, AlignedFrom h.heapEnd b)
    (fun _ member => absurd member List.not_mem_nil)
    (fun _ _ _ rep aligned step => blocksStep_aligned rep aligned step) run

/-- A pointer that `malloc` returns is as aligned as the start, and the heap has room for a block of 8 bytes. -/
theorem served_pointer {h : KernelHeap} (fresh : FreshHeap h) {calls : List HeapCall} {s : MallocSystem}
    (run : Path (ServedStep h.heapEnd) ⟨h, fun _ => none⟩ calls s) {size : ℕ} (word : size < 2 ^ 64)
    (served : RequestServed s.heap size (HeapServes s.heap size)) {fuel ptr : ℕ} {h' : KernelHeap}
    (returns : malloc sbrk fuel s.heap size = some (ptr, h')) (nonnull : ptr ≠ 0) :
    ptr % 8 = h.heapEnd % 8 ∧ h.heapEnd + (headerSize + 8) ≤ h.heapLimit := by
  obtain ⟨blocks, heap, aligned⟩ := served_aligned fresh run
  obtain ⟨blocks', edit, _, b, member, rfl, enough, lower, upper⟩ := heap.malloc_block word served returns nonnull
  obtain ⟨place, length⟩ := blocksStep_aligned heap.owned.rep aligned edit b member
  have nonzero : size ≠ 0 := by
    rintro rfl
    rw [malloc, if_pos rfl] at returns
    cases returns
  simp only [Block.stop, MemoryBlock.data, headerSize] at upper ⊢
  omega

/-- Where there is room for a block of 8 bytes, the first such request is granted. -/
theorem malloc_eight {h : KernelHeap} (fresh : FreshHeap h) (kernel : h.kernelEnd ≤ h.heapEnd)
    (room : h.heapEnd + (headerSize + 8) ≤ h.heapLimit) :
    RequestServed h 8 (HeapServes h 8) ∧ ∃ h', malloc sbrk 1 h 8 = some (MemoryBlock.data h.heapEnd, h') := by
  have limitSmall := fresh.limitSmall
  simp only [headerSize] at room
  have request : RequestFits h 8 := ⟨by decide, by simp only [headerSize, roundRequest]; omega⟩
  refine ⟨request.served _ fresh.endSmall, ?_⟩
  have granted : ¬SbrkRefuses h ((headerSize + roundRequest 8) % 2 ^ 64) := by
    have sum : (headerSize + roundRequest 8) % 2 ^ 64 = 32 := by decide
    rw [sum, SbrkRefuses, Nat.mod_eq_of_lt (by omega), sbrkFailed]
    omega
  obtain ⟨h', returns, _⟩ := malloc_first fresh.first (by decide) (sbrk_granted granted)
    (by rw [sbrkFailed]; omega)
  exact ⟨h', returns⟩

/-- The first block lies behind a header at the start of the heap. -/
theorem not_alwaysAligned (fresh : FreshHeap k.heap) (kernel : k.kernelEnd ≤ k.heapEnd)
    (room : k.heapEnd + (headerSize + 8) ≤ k.heapLimit) (misplaced : k.heapEnd % 8 ≠ 0) : ¬AlwaysAligned k := by
  intro always
  obtain ⟨served, h', returns⟩ := malloc_eight fresh kernel room
  have multiple := always [] _ (.nil _) 8 (by decide) served 1 _ h' returns
    (by simp only [MemoryBlock.data, headerSize]; omega)
  have place : k.heap.heapEnd = k.heapEnd := rfl
  simp only [MemoryBlock.data, headerSize, place] at multiple
  omega

/-- For every boot information, with the kernel ending at a multiple of 16: `malloc` returns multiples of 8 only,
whatever served calls have been made, exactly when the size of the bitmap that `kernel_main` computes is one, or
the heap has no room for a block. -/
theorem always_aligned_iff (boots : KernelBoots m mbd mbdStart kernelEnd k) (kernel : 0x100000 ≤ kernelEnd)
    (physical : kernelEnd < 2 ^ 52) (aligned : kernelEnd % 16 = 0) :
    AlwaysAligned k ↔
      kernelBitmapSize mbd.memUpper % 8 = 0 ∨ k.heapLimit < k.heapEnd + (headerSize + 8) := by
  obtain ⟨fresh, kernelEnd_, start⟩ := freshHeap_of_boots boots kernel physical
  constructor
  · intro always
    by_contra misplaced
    rw [not_or, Nat.not_lt] at misplaced
    exact not_alwaysAligned fresh (by omega) misplaced.2 (by omega) always
  · intro condition calls s run size word served fuel ptr h' returns nonnull
    obtain ⟨same, room⟩ := @served_pointer k.heap fresh _ _ run _ word served _ _ _ returns nonnull
    have place : k.heap.heapEnd = k.heapEnd ∧ k.heap.heapLimit = k.heapLimit := ⟨rfl, rfl⟩
    rw [place.1] at same room
    rw [place.2] at room
    omega

end Boot

/-- With 129 MiB above the first megabyte the bitmap has 4128 bytes. -/
theorem always_aligned_iff_sample :
    ∃ k, KernelBoots sampleMemory { sampleInfo with memUpper := 132096 } 0x14F000 0x200000 k ∧ AlwaysAligned k := by
  have boot : KernelBoot sampleMemory { sampleInfo with memUpper := 132096 } 0x200000
      [lowMemory, highMemory] := ⟨by decide, sampleMap, by decide, by decide, by decide⟩
  obtain ⟨k, boots⟩ := boot.boots 0x14F000 (by decide)
  exact ⟨k, boots, (always_aligned_iff boots (by decide) (by decide) (by decide)).mpr (Or.inl (by decide))⟩

/-- With 128 KiB less than 127 MiB it has 4060, and the heap starts at 0x200FDC. -/
theorem always_aligned_fails :
    ∃ k, KernelBoots sampleMemory { sampleInfo with memUpper := 129920 } 0x14F000 0x200000 k ∧ ¬AlwaysAligned k := by
  have boot : KernelBoot sampleMemory { sampleInfo with memUpper := 129920 } 0x200000
      [lowMemory, highMemory] := ⟨by decide, sampleMap, by decide, by decide, by decide⟩
  obtain ⟨k, boots⟩ := boot.boots 0x14F000 (by decide)
  obtain ⟨fresh, kernelEnd, _⟩ := freshHeap_of_boots boots (by decide) (by decide)
  have booted := boot.booted boots
  have heapEnd : k.heapEnd = 0x200FDC := booted.heapEnd
  have heapLimit : k.heapLimit = 0x8000000 := booted.heapLimit.trans (by decide)
  refine ⟨k, boots, not_alwaysAligned fresh ?_ ?_ ?_⟩
  · omega
  · simp only [headerSize]
    omega
  · omega

end RaryOS.Soundness
