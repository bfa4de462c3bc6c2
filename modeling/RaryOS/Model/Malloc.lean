import RaryOS.Core.Loop
import RaryOS.Core.Memory

/-! # The kernel heap: `sbrk`, `malloc` and `free`

`sbrk` moves the break between `kernel_end` and `heap_limit`; `malloc` keeps a singly linked list of
blocks, each a 24-byte header followed by its payload, in the memory that `sbrk` hands out. A null
pointer is `0`. Signed increments are their 64-bit patterns.
-/

namespace RaryOS.Model

open RaryOS.Core

/-- `heap_end`, `heap_limit` and `kernel_end` of `kernel.c`, and `first_block` of `malloc.cpp`. -/
structure KernelHeap where
  mem : Memory
  kernelEnd : ℕ
  heapEnd : ℕ
  heapLimit : ℕ
  firstBlock : ℕ := 0

/-- `(void*)-1`. -/
def sbrkFailed : ℕ := 2 ^ 64 - 1

/-- `sbrk`: the old break, or `(void*)-1` when the new one would leave the heap. -/
def sbrk (h : KernelHeap) (increment : ℕ) : ℕ × KernelHeap :=
  let currentNext := (h.heapEnd + increment) % 2 ^ 64
  if h.heapLimit < currentNext ∨ currentNext < h.kernelEnd then (sbrkFailed, h)
  else (h.heapEnd, { h with heapEnd := currentNext })

/-- `sizeof(MemoryBlock)`. -/
def headerSize : ℕ := 24

namespace MemoryBlock

def size (m : Memory) (block : ℕ) : ℕ := m.load64 block
def isFree (m : Memory) (block : ℕ) : Bool := m (block + 8) != 0
def next (m : Memory) (block : ℕ) : ℕ := m.load64 (block + 16)

def setSize (m : Memory) (block value : ℕ) : Memory := m.store64 block value
def setFree (m : Memory) (block : ℕ) (value : Bool) : Memory :=
  m.store8 (block + 8) (if value then 1 else 0)
def setNext (m : Memory) (block value : ℕ) : Memory := m.store64 (block + 16) value

/-- `this + 1`. -/
def data (block : ℕ) : ℕ := block + headerSize

/-- `data_ptr - 1`. -/
def fromData (dataPtr : ℕ) : ℕ := dataPtr - headerSize

/-- `split`: when enough is left over, end the block after `requestedSize` bytes and put the header of
a free block behind it. -/
def split (m : Memory) (this requestedSize : ℕ) : Memory :=
  if (requestedSize + headerSize + 16) % 2 ^ 64 ≤ size m this then
    let nextBlock := (this + headerSize + requestedSize) % 2 ^ 64
    let m := setSize m nextBlock
      ((size m this + (2 ^ 64 - requestedSize) + (2 ^ 64 - headerSize)) % 2 ^ 64)
    let m := setFree m nextBlock true
    let m := setNext m nextBlock (next m this)
    let m := setSize m this requestedSize
    setNext m this nextBlock
  else m

/-- One iteration of `coalesce`: absorb the next block if both are free. -/
def coalesceBody (this : ℕ) (m : Memory) : Memory ⊕ Memory :=
  if next m this ≠ 0 ∧ isFree m this = true ∧ isFree m (next m this) = true then
    let m := setSize m this ((size m this + headerSize + size m (next m this)) % 2 ^ 64)
    .inl (setNext m this (next m (next m this)))
  else .inr m

end MemoryBlock

open MemoryBlock

/-- How the search of `malloc` ends: at a block that fits, or past the last block. -/
inductive MallocSearch where
  | found (block : ℕ)
  | missing (last : ℕ)
deriving DecidableEq, Repr

/-- One iteration of the search; the state is `current` and `last`. -/
def mallocBody (m : Memory) (size : ℕ) : ℕ × ℕ → (ℕ × ℕ) ⊕ MallocSearch
  | (current, last) =>
    if current = 0 then .inr (.missing last)
    else if isFree m current = true ∧ size ≤ MemoryBlock.size m current then .inr (.found current)
    else .inl (next m current, current)

/-- `size = (size + 7) & ~7`. -/
def roundRequest (size : ℕ) : ℕ := (size + 7) % 2 ^ 64 / 8 * 8

/-- `malloc`, with the function it extends the heap by. -/
def malloc (extend : KernelHeap → ℕ → ℕ × KernelHeap) (fuel : ℕ) (h : KernelHeap) (size : ℕ) :
    Option (ℕ × KernelHeap) :=
  if size = 0 then some (0, h)
  else
    match loop (mallocBody h.mem (roundRequest size)) fuel (h.firstBlock, 0) with
    | none => none
    | some (.found current) =>
      some (data current,
        { h with mem := setFree (split h.mem current (roundRequest size)) current false })
    | some (.missing last) =>
      let (rawMem, h) := extend h ((headerSize + roundRequest size) % 2 ^ 64)
      if rawMem = sbrkFailed then some (0, h)
      else
        let m := setSize h.mem rawMem (roundRequest size)
        let m := setFree m rawMem false
        let m := setNext m rawMem 0
        if h.firstBlock = 0 then some (data rawMem, { h with mem := m, firstBlock := rawMem })
        else some (data rawMem, { h with mem := setNext m last rawMem })

/-- One iteration of the sweep in `free`; `none` is a `coalesce` that is still running. -/
def freeBody (fuel : ℕ) : Memory × ℕ → (Memory × ℕ) ⊕ Option Memory
  | (m, current) =>
    if current = 0 then .inr (some m)
    else
      match loop (coalesceBody current) fuel m with
      | none => .inr none
      | some m => .inl (m, next m current)

/-- `free`: mark the block, then coalesce from every block of the list in turn. -/
def free (fuel : ℕ) (h : KernelHeap) (ptr : ℕ) : Option KernelHeap :=
  if ptr = 0 then some h
  else
    let m := setFree h.mem (fromData ptr) true
    ((loop (freeBody fuel) fuel (m, h.firstBlock)).join).map fun m => { h with mem := m }

end RaryOS.Model
