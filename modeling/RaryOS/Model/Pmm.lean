import RaryOS.Core.Bitmap
import RaryOS.Model.Multiboot

/-! # The physical page allocator

`pmm.c` keeps one bit per 4 KiB frame in a bitmap placed right after the kernel; a set bit is a used
frame. Initialization and `pmm_free_page` address the bitmap by bytes, `pmm_alloc_page` by 64-bit
words. The static variables are the fields of `PmmState`, next to the memory they describe.
-/

namespace RaryOS.Model

open RaryOS.Core

def pageSize : ℕ := 4096

/-- `x & ~(uintptr_t)(PAGE_SIZE - 1)`. -/
def alignDown (x : ℕ) : ℕ := x / pageSize * pageSize

/-- `(x + PAGE_SIZE - 1) & ~(uintptr_t)(PAGE_SIZE - 1)` in 64 bits. -/
def alignUp (x : ℕ) : ℕ := (x + (pageSize - 1)) % 2 ^ 64 / pageSize * pageSize

/-- The static variables of `pmm.c` and the memory that holds the bitmap. -/
structure PmmState where
  mem : Memory
  pmmBitmap : ℕ := 0
  pmmMaxBlocks : ℕ := 0
  pmmBitmapSize : ℕ := 0
  pmmHintWord : ℕ := 0

def pmmSetBit (s : PmmState) (bit : ℕ) : PmmState :=
  { s with mem := Bitmap.set s.mem s.pmmBitmap bit }

def pmmClearBit (s : PmmState) (bit : ℕ) : PmmState :=
  { s with mem := Bitmap.clear s.mem s.pmmBitmap bit }

def pmmTestBit (s : PmmState) (bit : ℕ) : Bool := Bitmap.test s.mem s.pmmBitmap bit

/-- `for (i = 0; i < count; i++) { if (bit >= pmm_max_blocks) break; op(bit); }` -/
def pmmRegionLoop (op : PmmState → ℕ → PmmState) : (count : ℕ) → (bit : ℕ) → PmmState → PmmState
  | 0, _, s => s
  | count + 1, bit, s =>
    if s.pmmMaxBlocks ≤ bit then s else pmmRegionLoop op count (bit + 1) (op s bit)

/-- Free the whole pages of a region: its start is rounded up and its end down. -/
def pmmInitRegion (s : PmmState) (base size : ℕ) : PmmState :=
  let start := alignUp base
  let stop := alignDown ((base + size) % 2 ^ 64)
  if stop ≤ start then s
  else pmmRegionLoop pmmClearBit ((stop - start) / pageSize) (start / pageSize) s

/-- Reserve every page a region touches: its start is rounded down and its end up. -/
def pmmDeinitRegion (s : PmmState) (base size : ℕ) : PmmState :=
  let start := alignDown base
  let stop := alignUp ((base + size) % 2 ^ 64)
  if stop ≤ start then s
  else pmmRegionLoop pmmSetBit ((stop - start) / pageSize) (start / pageSize) s

/-- The two places where `pmm_init` stops the machine. -/
inductive PmmPanic where
  | mmapEntryCorrupted
  | regionOverflow
deriving DecidableEq, Repr

def PmmPanic.message : PmmPanic → String
  | .mmapEntryCorrupted => "PANIC: Multiboot mmap entry size is corrupted or overflows buffer!\n"
  | .regionOverflow => "PANIC: Mmap region address integer overflow!\n"

/-- One iteration of the first walk: check the entry, then raise `max_memory_addr`. -/
def pmmInitScan (m : Memory) (mmapEnd : ℕ) : ℕ × ℕ → (ℕ × ℕ) ⊕ Except PmmPanic ℕ
  | (mmap, maxMemoryAddr) =>
    let e := MemoryMap.read m mmap
    if mmapInside mmap mmapEnd then
      if e.size < sizeofMemoryMap - 4 ∨ mmapEnd < (mmap + e.size + 4) % 2 ^ 32 then
        .inr (.error .mmapEntryCorrupted)
      else if e.type = 1 then
        let endAddr := (e.addr + e.len) % 2 ^ 64
        if endAddr < e.addr then .inr (.error .regionOverflow)
        else .inl (MemoryMap.next m mmap, if maxMemoryAddr < endAddr then endAddr else maxMemoryAddr)
      else .inl (MemoryMap.next m mmap, maxMemoryAddr)
    else .inr (.ok maxMemoryAddr)

/-- `pmm_max_blocks` as computed from `max_memory_addr`. -/
def pmmMaxBlocksOf (maxMemoryAddr : ℕ) : ℕ := alignDown maxMemoryAddr / pageSize

/-- `pmm_bitmap_size`: whole bytes for the frames, then whole pages for the bytes. -/
def pmmBitmapSizeOf (maxMemoryAddr : ℕ) : ℕ :=
  alignDown ((pmmMaxBlocksOf maxMemoryAddr + 7) / 8 + (pageSize - 1))

/-- Size the bitmap for the highest available address, place it and mark every frame used. -/
def pmmInitPlace (s : PmmState) (maxMemoryAddr kernelEndPhys : ℕ) : PmmState where
  mem := s.mem.fill kernelEndPhys (pmmBitmapSizeOf maxMemoryAddr) 0xFF
  pmmBitmap := kernelEndPhys
  pmmMaxBlocks := pmmMaxBlocksOf maxMemoryAddr
  pmmBitmapSize := pmmBitmapSizeOf maxMemoryAddr
  pmmHintWord := s.pmmHintWord

/-- One iteration of the second walk: free the pages of an available region. The entry's size is
read again after its region was freed. -/
def pmmInitRelease (mmapEnd : ℕ) : PmmState × ℕ → (PmmState × ℕ) ⊕ PmmState
  | (s, mmap) =>
    if mmapInside mmap mmapEnd then
      let e := MemoryMap.read s.mem mmap
      let s := if e.type = 1 then pmmInitRegion s e.addr e.len else s
      .inl (s, MemoryMap.next s.mem mmap)
    else .inr s

/-- The reservations: low memory, kernel and bitmap, the information structure, its memory map. -/
def pmmInitReserve (s : PmmState) (mbd : MultibootInfo) (mbdStart : ℕ) : PmmState :=
  let pmmEndPhys := (s.pmmBitmap + s.pmmBitmapSize) % 2 ^ 64
  let mbdEnd := (mbdStart + sizeofMultibootInfo) % 2 ^ 64
  let s := pmmDeinitRegion s 0x00000000 (1024 * 1024)
  let s := pmmDeinitRegion s 0x100000 ((pmmEndPhys + (2 ^ 64 - 0x100000)) % 2 ^ 64)
  let s := pmmDeinitRegion s mbdStart ((mbdEnd + (2 ^ 64 - mbdStart)) % 2 ^ 64)
  pmmDeinitRegion s mbd.mmapAddr ((mbd.mmapEnd + (2 ^ 64 - mbd.mmapAddr)) % 2 ^ 64)

/-- Mark the bits past `pmm_max_blocks` in the last word, and start searching at word 0. -/
def pmmInitTail (s : PmmState) : PmmState :=
  let lastWord := (s.pmmMaxBlocks - 1) / 64
  let lastBit := (s.pmmMaxBlocks - 1) % 64
  let mem :=
    if 0 < s.pmmMaxBlocks ∧ lastBit < 63 then
      Bitmap.orWord s.mem s.pmmBitmap lastWord (2 ^ 64 - 2 ^ (lastBit + 1))
    else s.mem
  { s with mem := mem, pmmHintWord := 0 }

/-- `pmm_init`. Without a memory map it only reports the error. -/
def pmmInit (fuel : ℕ) (s : PmmState) (mbd : MultibootInfo) (mbdStart kernelEndPhys : ℕ) :
    Option (Except PmmPanic PmmState) :=
  if mbd.hasMemMap then
    match loop (pmmInitScan s.mem mbd.mmapEnd) fuel (mbd.mmapAddr, 0) with
    | none => none
    | some (.error panic) => some (.error panic)
    | some (.ok maxMemoryAddr) =>
      match loop (pmmInitRelease mbd.mmapEnd) fuel
          (pmmInitPlace s maxMemoryAddr kernelEndPhys, mbd.mmapAddr) with
      | none => none
      | some s => some (.ok (pmmInitTail (pmmInitReserve s mbd mbdStart)))
  else some (.ok s)

/-- `pmm_init` accepts the map: it stops without a panic. -/
def PmmAccepts (s : PmmState) (mbd : MultibootInfo) (mbdStart kernelEndPhys : ℕ)
    (t : PmmState) : Prop :=
  ∃ fuel, pmmInit fuel s mbd mbdStart kernelEndPhys = some (.ok t)

/-- `for (w = start; w < stop; w++)` over `count` words: take the lowest clear bit of the first word
that has one. The result is the page address and the new state. -/
def pmmAllocScan (s : PmmState) : (count : ℕ) → (w : ℕ) → Option (ℕ × PmmState)
  | 0, _ => none
  | count + 1, w =>
    let word := Bitmap.word s.mem s.pmmBitmap w
    if word = 2 ^ 64 - 1 then pmmAllocScan s count (w + 1)
    else
      let bit := ctz64 (2 ^ 64 - 1 - word)
      let globalBit := 64 * w + bit
      some (globalBit * pageSize % 2 ^ 64,
        { s with mem := Bitmap.orWord s.mem s.pmmBitmap w (2 ^ bit), pmmHintWord := w })

/-- `pmm_alloc_page`: from the hint to the end, then from the start to the hint. `0` is `NULL`. -/
def pmmAllocPage (s : PmmState) : ℕ × PmmState :=
  if s.pmmMaxBlocks = 0 then (0, s)
  else
    let words := (s.pmmMaxBlocks + 63) / 64
    match pmmAllocScan s (words - s.pmmHintWord) s.pmmHintWord with
    | some result => result
    | none =>
      match pmmAllocScan s s.pmmHintWord 0 with
      | some result => result
      | none => (0, s)

/-- `pmm_free_page`. -/
def pmmFreePage (s : PmmState) (pagePhys : ℕ) : PmmState :=
  let globalBit := pagePhys / pageSize
  if globalBit < s.pmmMaxBlocks then
    let s := pmmClearBit s globalBit
    if globalBit / 64 < s.pmmHintWord then { s with pmmHintWord := globalBit / 64 } else s
  else s

end RaryOS.Model
