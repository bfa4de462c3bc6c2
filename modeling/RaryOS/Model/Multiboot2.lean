import RaryOS.Model.Kernel

/-! # Converting the Multiboot2 information

The loader passes a block of tags: a header with the total size, then tags that start at multiples of
eight, the last one an end tag. `convert_mb2_to_mb1` walks the tags and fills `g_mb_info` and the
memory map `g_mmap_buffer`, which the rest of the kernel reads. Pointers into the block stay far below
2^64, so only the `uint32_t` arithmetic can wrap around.
-/

namespace RaryOS.Model

open RaryOS.Core

def mb2TagEnd : ℕ := 0
def mb2TagBootloader : ℕ := 2
def mb2TagBasicMem : ℕ := 4
def mb2TagMmap : ℕ := 6
def mb2TagFramebuffer : ℕ := 8

/-- The number of elements of `g_mmap_buffer`. -/
def mmapBufferLength : ℕ := 128

/-- `g_mb_info`, the memory that holds `g_mmap_buffer` and the block, and `mmap_count`. -/
structure Mb2Conversion where
  mem : Memory
  info : MultibootInfo := {}
  mmapCount : ℕ := 0

/-- The division by an entry size of zero faults. -/
inductive Mb2Fault where
  | divideError
deriving DecidableEq, Repr

/-- Fill an element of `g_mmap_buffer` from the entry at `me`, one assignment after the other. -/
def mb2CopyEntry (m : Memory) (element me : ℕ) : Memory :=
  let m := m.store32 element 20
  let m := m.store64 (element + 4) (m.load64 me)
  let m := m.store64 (element + 12) (m.load64 (me + 8))
  m.store32 (element + 20) (m.load32 (me + 16))

/-- The loop over the entries of one tag, of which `n` are left. -/
def mb2CopyEntries (buffer esz : ℕ) : (n : ℕ) → (e : ℕ) → Mb2Conversion → Mb2Conversion
  | 0, _, c => c
  | n + 1, e, c =>
    if c.mmapCount < mmapBufferLength then
      mb2CopyEntries buffer esz n (e + esz)
        { c with
          mem := mb2CopyEntry c.mem (buffer + sizeofMemoryMap * c.mmapCount) e
          mmapCount := c.mmapCount + 1 }
    else c

/-- The fields of `g_mb_info` that a memory-map tag sets. -/
def mb2SetMmap (buffer mmapCount : ℕ) (info : MultibootInfo) : MultibootInfo :=
  { info with
    mmapLength := mmapCount * 24
    mmapAddr := buffer % 2 ^ 32
    flags := info.flags ||| multibootInfoMemMap }

/-- The fields of a basic-memory tag. -/
def mb2SetBasicMem (m : Memory) (p : ℕ) (info : MultibootInfo) : MultibootInfo :=
  { info with
    memLower := m.load32 (p + 8)
    memUpper := m.load32 (p + 12)
    flags := info.flags ||| multibootInfoMemory }

/-- The address of the string of a boot-loader tag. -/
def mb2SetBootloader (p : ℕ) (info : MultibootInfo) : MultibootInfo :=
  { info with
    bootLoaderName := (p + 8) % 2 ^ 32
    flags := info.flags ||| multibootInfoBootLoaderName }

/-- The fields of a framebuffer tag. -/
def mb2SetFramebuffer (m : Memory) (p : ℕ) (info : MultibootInfo) : MultibootInfo :=
  { info with
    framebufferAddr := m.load64 (p + 8)
    framebufferPitch := m.load32 (p + 16)
    framebufferWidth := m.load32 (p + 20)
    framebufferHeight := m.load32 (p + 24)
    framebufferBpp := (m (p + 28)).toNat
    framebufferType := (m (p + 29)).toNat
    flags := info.flags ||| multibootInfoFramebufferInfo }

/-- A memory-map tag: the number of its entries is computed in `uint32_t`. -/
def mb2HandleMmap (buffer : ℕ) (c : Mb2Conversion) (p : ℕ) : Except Mb2Fault Mb2Conversion :=
  let esz := c.mem.load32 (p + 8)
  if esz = 0 then .error .divideError
  else
    let n := (c.mem.load32 (p + 4) + (2 ^ 32 - 16)) % 2 ^ 32 / esz
    let c := mb2CopyEntries buffer esz n (p + 16) c
    .ok { c with info := mb2SetMmap buffer c.mmapCount c.info }

/-- The dispatch on the type of the tag at `p`. -/
def mb2HandleTag (buffer : ℕ) (c : Mb2Conversion) (p : ℕ) : Except Mb2Fault Mb2Conversion :=
  let type := c.mem.load32 p
  if type = mb2TagBasicMem then .ok { c with info := mb2SetBasicMem c.mem p c.info }
  else if type = mb2TagMmap then mb2HandleMmap buffer c p
  else if type = mb2TagBootloader then .ok { c with info := mb2SetBootloader p c.info }
  else if type = mb2TagFramebuffer then .ok { c with info := mb2SetFramebuffer c.mem p c.info }
  else .ok c

/-- `(size + 7) & ~7u` in `uint32_t`. -/
def mb2Aligned (size : ℕ) : ℕ := (size + 7) % 2 ^ 32 / 8 * 8

/-- One iteration of the loop over the tags. -/
def mb2TagBody (buffer stop : ℕ) :
    Mb2Conversion × ℕ → (Mb2Conversion × ℕ) ⊕ Except Mb2Fault Mb2Conversion
  | (c, p) =>
    if p < stop then
      if c.mem.load32 p = mb2TagEnd then .inr (.ok c)
      else
        match mb2HandleTag buffer c p with
        | .error fault => .inr (.error fault)
        | .ok c => .inl (c, p + mb2Aligned (c.mem.load32 (p + 4)))
    else .inr (.ok c)

/-! What an iteration reads, as addresses and widths. -/

/-- `(m->size - 16) / esz`. -/
def mb2EntryNumber (m : Memory) (p : ℕ) : ℕ :=
  (m.load32 (p + 4) + (2 ^ 32 - 16)) % 2 ^ 32 / m.load32 (p + 8)

/-- `convert_mb2_to_mb1`, with `g_mmap_buffer` at `buffer`. -/
def convertMb2ToMb1 (fuel : ℕ) (m : Memory) (mb2Addr buffer : ℕ) :
    Option (Except Mb2Fault Mb2Conversion) :=
  if mb2Addr = 0 then some (.ok { mem := m })
  else loop (mb2TagBody buffer (mb2Addr + m.load32 mb2Addr)) fuel ({ mem := m }, mb2Addr + 8)

/-- The conversion ends without a fault. -/
def Mb2Converts (m : Memory) (mb2Addr buffer : ℕ) (c : Mb2Conversion) : Prop :=
  ∃ fuel, convertMb2ToMb1 fuel m mb2Addr buffer = some (.ok c)

/-! ## Tag lists -/

/-- The size that covers the body of the tag at `p`, as far as the conversion reads it. -/
def mb2BodySize (type : ℕ) : ℕ :=
  if type = mb2TagBasicMem ∨ type = mb2TagMmap then 16 else if type = mb2TagFramebuffer then 32 else 8

/-- The tags of a well-formed block from `p` on: each covers its body, those of memory maps have
entries of at least 24 bytes, the next one starts at the next multiple of eight, and the end tag lies
inside the block. -/
inductive Mb2Tags (m : Memory) (stop : ℕ) : ℕ → List ℕ → Prop
  | nil {p : ℕ} : m.load32 p = mb2TagEnd → p + 8 ≤ stop → Mb2Tags m stop p []
  | cons {p : ℕ} {rest : List ℕ} : m.load32 p ≠ mb2TagEnd →
      mb2BodySize (m.load32 p) ≤ m.load32 (p + 4) →
      (m.load32 p = mb2TagMmap → 24 ≤ m.load32 (p + 8)) →
      Mb2Tags m stop (p + (m.load32 (p + 4) + 7) / 8 * 8) rest → Mb2Tags m stop p (p :: rest)

theorem Mb2Tags.cons_at {m : Memory} {stop p : ℕ} {rest : List ℕ} (next : ℕ)
    (notEnd : m.load32 p ≠ mb2TagEnd) (covers : mb2BodySize (m.load32 p) ≤ m.load32 (p + 4))
    (entrySize : m.load32 p = mb2TagMmap → 24 ≤ m.load32 (p + 8))
    (follows : p + (m.load32 (p + 4) + 7) / 8 * 8 = next) (tail : Mb2Tags m stop next rest) :
    Mb2Tags m stop p (p :: rest) := by
  subst follows
  exact .cons notEnd covers entrySize tail

/-- The map entry that the conversion makes of the one at `e`. -/
def mb2Entry (m : Memory) (e : ℕ) : MemoryMap := ⟨20, m.load64 e, m.load64 (e + 8), m.load32 (e + 16)⟩

/-- The `n` entries from `e` on, `esz` bytes apart. -/
def mb2EntriesFrom (m : Memory) (esz : ℕ) : (n : ℕ) → (e : ℕ) → List MemoryMap
  | 0, _ => []
  | n + 1, e => mb2Entry m e :: mb2EntriesFrom m esz n (e + esz)

/-- The entries of the tag at `p`, if it is a memory map. -/
def mb2TagEntries (m : Memory) (p : ℕ) : List MemoryMap :=
  if m.load32 p = mb2TagMmap then
    mb2EntriesFrom m (m.load32 (p + 8)) ((m.load32 (p + 4) - 16) / m.load32 (p + 8)) (p + 16)
  else []

/-- The entries of all memory-map tags, in order. -/
def mb2Entries (m : Memory) (tags : List ℕ) : List MemoryMap := tags.flatMap (mb2TagEntries m)

/-- A field read from the last tag of a kind; zero without one. -/
def mb2Last (m : Memory) (tags : List ℕ) (type : ℕ) (field : ℕ → ℕ) : ℕ :=
  ((tags.filter fun p => m.load32 p = type).getLast?.map field).getD 0

/-- Some tag is of this kind. -/
def mb2Has (m : Memory) (tags : List ℕ) (type : ℕ) : Bool := tags.any fun p => m.load32 p = type

/-- The flags for the kinds of tags that are present. -/
def mb2Flags (basicMem mmap bootloader framebuffer : Bool) : ℕ :=
  (if basicMem then multibootInfoMemory else 0) ||| (if mmap then multibootInfoMemMap else 0) |||
    (if bootloader then multibootInfoBootLoaderName else 0) |||
    (if framebuffer then multibootInfoFramebufferInfo else 0)

/-- What `g_mb_info` says about a block: each field from the last tag of its kind, each flag for the
presence of one, and the part of `g_mmap_buffer` that is filled. -/
def mb2Info (m : Memory) (buffer : ℕ) (tags : List ℕ) : MultibootInfo where
  flags :=
    mb2Flags (mb2Has m tags mb2TagBasicMem) (mb2Has m tags mb2TagMmap) (mb2Has m tags mb2TagBootloader)
      (mb2Has m tags mb2TagFramebuffer)
  memLower := mb2Last m tags mb2TagBasicMem fun p => m.load32 (p + 8)
  memUpper := mb2Last m tags mb2TagBasicMem fun p => m.load32 (p + 12)
  mmapLength := 24 * min 128 (mb2Entries m tags).length
  mmapAddr := mb2Last m tags mb2TagMmap fun _ => buffer
  bootLoaderName := mb2Last m tags mb2TagBootloader fun p => (p + 8) % 2 ^ 32
  framebufferAddr := mb2Last m tags mb2TagFramebuffer fun p => m.load64 (p + 8)
  framebufferPitch := mb2Last m tags mb2TagFramebuffer fun p => m.load32 (p + 16)
  framebufferWidth := mb2Last m tags mb2TagFramebuffer fun p => m.load32 (p + 20)
  framebufferHeight := mb2Last m tags mb2TagFramebuffer fun p => m.load32 (p + 24)
  framebufferBpp := mb2Last m tags mb2TagFramebuffer fun p => (m (p + 28)).toNat
  framebufferType := mb2Last m tags mb2TagFramebuffer fun p => (m (p + 29)).toNat

end RaryOS.Model
