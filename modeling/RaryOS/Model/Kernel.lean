import RaryOS.Model.Malloc
import RaryOS.Model.Pmm

/-! # How `kernel_main` sets up the two allocators

After the boot information is converted, `kernel_main` runs `pmm_init` on the memory behind the kernel
image, computes the size of the bitmap a second time for the start of the heap, adds up the available
memory, and lets `init_heap` find the end of the heap. Both allocators work on the same memory, which
is kept in the state of the page allocator.
-/

namespace RaryOS.Model

open RaryOS.Core

/-- The static variables of `kernel.c`, `pmm.c` and `malloc.cpp`. -/
structure Kernel where
  pmm : PmmState
  kernelEnd : ℕ
  heapEnd : ℕ
  heapLimit : ℕ
  firstBlock : ℕ := 0
  ramMb : ℕ := 0

/-- The heap of the kernel. -/
def Kernel.heap (k : Kernel) : KernelHeap where
  mem := k.pmm.mem
  kernelEnd := k.kernelEnd
  heapEnd := k.heapEnd
  heapLimit := k.heapLimit
  firstBlock := k.firstBlock

/-- The kernel after a call that changed its heap. -/
def Kernel.withHeap (k : Kernel) (h : KernelHeap) : Kernel :=
  { k with
    pmm := { k.pmm with mem := h.mem }
    heapEnd := h.heapEnd
    firstBlock := h.firstBlock }

/-- `bitmap_size` of `kernel_main`: `mem_upper * 1024` is computed in `uint32_t`. -/
def kernelBitmapSize (memUpper : ℕ) : ℕ := memUpper * 1024 % 2 ^ 32 / 4096 / 8

/-- One iteration of the walk that adds up the available memory. -/
def ramBody (m : Memory) (mmapEnd : ℕ) : ℕ × ℕ → (ℕ × ℕ) ⊕ ℕ
  | (mmap, totalRam) =>
    if mmapInside mmap mmapEnd then
      let e := MemoryMap.read m mmap
      .inl (MemoryMap.next m mmap, if e.type = 1 then (totalRam + e.len) % 2 ^ 64 else totalRam)
    else .inr totalRam

/-- One iteration of `init_heap`: stop at the available region that holds the end of the kernel. -/
def initHeapBody (m : Memory) (kernelAddr mmapEnd : ℕ) (mmap : ℕ) : ℕ ⊕ Option ℕ :=
  if mmapInside mmap mmapEnd then
    let e := MemoryMap.read m mmap
    if e.type = 1 ∧ e.addr ≤ kernelAddr ∧ kernelAddr < (e.addr + e.len) % 2 ^ 64 then
      .inr (some ((e.addr + e.len) % 2 ^ 64))
    else .inl (MemoryMap.next m mmap)
  else .inr none

/-- `init_heap`. Without a memory map the heap ends 16 MiB behind the kernel. -/
def initHeap (fuel : ℕ) (k : Kernel) (mbd : MultibootInfo) : Option Kernel :=
  if mbd.hasMemMap then
    match loop (initHeapBody k.pmm.mem k.kernelEnd mbd.mmapEnd) fuel mbd.mmapAddr with
    | none => none
    | some none => some k
    | some (some limit) => some { k with heapLimit := limit }
  else some { k with heapLimit := (k.kernelEnd + 16 * 1024 * 1024) % 2 ^ 64 }

/-- `kernel_main` from `pmm_init` to `init_heap`. -/
def kernelMainMemory (fuel : ℕ) (m : Memory) (mbd : MultibootInfo) (mbdStart kernelEnd : ℕ) :
    Option (Except PmmPanic Kernel) :=
  match pmmInit fuel { mem := m } mbd mbdStart kernelEnd with
  | none => none
  | some (.error panic) => some (.error panic)
  | some (.ok pmm) =>
    let totalRam :=
      if mbd.hasMemMap then loop (ramBody pmm.mem mbd.mmapEnd) fuel (mbd.mmapAddr, 0) else some 0
    match totalRam with
    | none => none
    | some totalRam =>
      let heapEnd := (kernelEnd + kernelBitmapSize mbd.memUpper) % 2 ^ 64
      let k : Kernel :=
        { pmm, kernelEnd, heapEnd, heapLimit := heapEnd, ramMb := totalRam / 1024 / 1024 }
      (initHeap fuel k mbd).map .ok

/-- `kernel_main` gets past `init_heap`. -/
def KernelBoots (m : Memory) (mbd : MultibootInfo) (mbdStart kernelEnd : ℕ) (k : Kernel) : Prop :=
  ∃ fuel, kernelMainMemory fuel m mbd mbdStart kernelEnd = some (.ok k)

@[simp] theorem Kernel.withHeap_heap (k : Kernel) (h : KernelHeap) (kernelEnd : h.kernelEnd = k.kernelEnd)
    (limit : h.heapLimit = k.heapLimit) : (k.withHeap h).heap = h := by
  obtain ⟨mem, _, _, _, _⟩ := h
  simp only at kernelEnd limit
  subst kernelEnd limit
  rfl

end RaryOS.Model
