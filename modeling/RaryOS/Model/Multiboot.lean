import RaryOS.Core.Loop
import RaryOS.Core.Memory

/-! # The Multiboot information the kernel passes around

`multiboot_info_t` keeps the fields that some modelled function reads or writes. The memory map is a
sequence of packed entries in memory; its walks advance by the entry's own size field, with the
pointer truncated to 32 bits in the loop test only.
-/

namespace RaryOS.Model

open RaryOS.Core

def multibootInfoMemory : ℕ := 0x00000001
def multibootInfoMemMap : ℕ := 0x00000040
def multibootInfoBootLoaderName : ℕ := 0x00000200
def multibootInfoFramebufferInfo : ℕ := 0x00001000

/-- `multiboot_info_t`, restricted to the fields in use. -/
structure MultibootInfo where
  flags : ℕ := 0
  memLower : ℕ := 0
  memUpper : ℕ := 0
  mmapLength : ℕ := 0
  mmapAddr : ℕ := 0
  bootLoaderName : ℕ := 0
  framebufferAddr : ℕ := 0
  framebufferPitch : ℕ := 0
  framebufferWidth : ℕ := 0
  framebufferHeight : ℕ := 0
  framebufferBpp : ℕ := 0
  framebufferType : ℕ := 0
deriving DecidableEq, Repr

/-- `sizeof(multiboot_info_t)`: the colour union at the end keeps its own padding to 8 bytes. -/
def sizeofMultibootInfo : ℕ := 118

/-- `sizeof(multiboot_memory_map_t)`, packed. -/
def sizeofMemoryMap : ℕ := 24

/-- `multiboot_memory_map_t`. -/
structure MemoryMap where
  size : ℕ
  addr : ℕ
  len : ℕ
  type : ℕ
deriving DecidableEq, Repr

/-- Read the packed entry at a pointer. -/
def MemoryMap.read (m : Memory) (mmap : ℕ) : MemoryMap where
  size := m.load32 mmap
  addr := m.load64 (mmap + 4)
  len := m.load64 (mmap + 12)
  type := m.load32 (mmap + 20)

/-- What an iteration of `pmm_init` that goes on reads at a pointer, as addresses and widths: `size` and
`type`, and of available memory `addr` and `len`. -/
def MemoryMap.reads (m : Memory) (mmap : ℕ) : List (ℕ × ℕ) :=
  [(mmap, 4), (mmap + 20, 4)] ++
    if (MemoryMap.read m mmap).type = 1 then [(mmap + 4, 8), (mmap + 12, 8)] else []

/-- Write the four packed fields of an entry, in the order of the source's assignments. -/
def MemoryMap.write (m : Memory) (mmap : ℕ) (e : MemoryMap) : Memory :=
  (((m.store32 mmap e.size).store64 (mmap + 4) e.addr).store64 (mmap + 12) e.len).store32 (mmap + 20)
    e.type

/-- `mmap = (multiboot_memory_map_t*)((uintptr_t)mmap + mmap->size + 4)`. -/
def MemoryMap.next (m : Memory) (mmap : ℕ) : ℕ := (mmap + m.load32 mmap + 4) % 2 ^ 64

/-- `(uint32_t)(uintptr_t)mmap < end`. -/
def mmapInside (mmap stop : ℕ) : Bool := decide (mmap % 2 ^ 32 < stop)

/-- `mbd->mmap_addr + mbd->mmap_length` in `uint32_t`. -/
def MultibootInfo.mmapEnd (mbd : MultibootInfo) : ℕ := (mbd.mmapAddr + mbd.mmapLength) % 2 ^ 32

/-- `mbd->flags & MULTIBOOT_INFO_MEM_MAP`. -/
def MultibootInfo.hasMemMap (mbd : MultibootInfo) : Bool := mbd.flags &&& multibootInfoMemMap != 0

/-- An entry inside the first `bytes` bytes past `mmap`, read from a memory that agrees there. -/
theorem MemoryMap.read_congr {m m' : Memory} {mmap : ℕ} (agree : Memory.Agree m m' mmap 24) :
    MemoryMap.read m' mmap = MemoryMap.read m mmap := by
  have part (offset width : ℕ) (fits : offset + width ≤ 24) :
      m'.load (mmap + offset) width = m.load (mmap + offset) width :=
    Memory.load_congr fun query lower upper => agree query (by omega) (by omega)
  simp only [MemoryMap.read, Memory.load32, Memory.load64, part 4 8 (by omega), part 12 8 (by omega),
    part 20 4 (by omega)]
  rw [show mmap = mmap + 0 from rfl, part 0 4 (by omega)]

/-- Reading back a written entry whose fields fit their types. -/
theorem MemoryMap.read_write (m : Memory) (mmap : ℕ) {e : MemoryMap} (size : e.size < 2 ^ 32)
    (addr : e.addr < 2 ^ 64) (len : e.len < 2 ^ 64) (type : e.type < 2 ^ 32) :
    MemoryMap.read (MemoryMap.write m mmap e) mmap = e := by
  have readSize : (MemoryMap.write m mmap e).load32 mmap = e.size := by
    simp only [MemoryMap.write, Memory.load32, Memory.store32, Memory.store64]
    rw [Memory.load_store_of_disjoint _ _ (by omega), Memory.load_store_of_disjoint _ _ (by omega),
      Memory.load_store_of_disjoint _ _ (by omega), Memory.load_store_same]
    exact Nat.mod_eq_of_lt size
  have readAddr : (MemoryMap.write m mmap e).load64 (mmap + 4) = e.addr := by
    simp only [MemoryMap.write, Memory.load64, Memory.store32, Memory.store64]
    rw [Memory.load_store_of_disjoint _ _ (by omega), Memory.load_store_of_disjoint _ _ (by omega),
      Memory.load_store_same]
    exact Nat.mod_eq_of_lt addr
  have readLen : (MemoryMap.write m mmap e).load64 (mmap + 12) = e.len := by
    simp only [MemoryMap.write, Memory.load64, Memory.store32, Memory.store64]
    rw [Memory.load_store_of_disjoint _ _ (by omega), Memory.load_store_same]
    exact Nat.mod_eq_of_lt len
  have readType : (MemoryMap.write m mmap e).load32 (mmap + 20) = e.type := by
    simp only [MemoryMap.write, Memory.load32_store32_same]
    exact Nat.mod_eq_of_lt type
  simp only [MemoryMap.read, readSize, readAddr, readLen, readType]

theorem MemoryMap.write_apply_of_outside (m : Memory) {mmap query : ℕ} (e : MemoryMap)
    (outside : query < mmap ∨ mmap + 24 ≤ query) : MemoryMap.write m mmap e query = m query := by
  simp only [MemoryMap.write, Memory.store32, Memory.store64]
  rw [Memory.store_apply_of_outside _ _ (by omega), Memory.store_apply_of_outside _ _ (by omega),
    Memory.store_apply_of_outside _ _ (by omega), Memory.store_apply_of_outside _ _ (by omega)]

theorem MemoryMap.addr_lt (m : Memory) (mmap : ℕ) : (MemoryMap.read m mmap).addr < 2 ^ 64 :=
  m.load64_lt _

theorem MemoryMap.len_lt (m : Memory) (mmap : ℕ) : (MemoryMap.read m mmap).len < 2 ^ 64 :=
  m.load64_lt _

/-- The entries of a well-formed map: consecutive, each at least 20 bytes after its size field and
inside the buffer, the last one ending where the buffer ends. -/
inductive MapEntries (m : Memory) (stop : ℕ) : ℕ → List MemoryMap → Prop
  | nil : MapEntries m stop stop []
  | cons {mmap : ℕ} {rest : List MemoryMap} :
      20 ≤ (MemoryMap.read m mmap).size → mmap + (MemoryMap.read m mmap).size + 4 ≤ stop →
      MapEntries m stop (mmap + (MemoryMap.read m mmap).size + 4) rest →
      MapEntries m stop mmap (MemoryMap.read m mmap :: rest)

theorem MapEntries.cons_of_read {m : Memory} {stop mmap next : ℕ} {e : MemoryMap}
    {rest : List MemoryMap} (entry : MemoryMap.read m mmap = e) (large : 20 ≤ e.size)
    (follows : next = mmap + e.size + 4) (tail : MapEntries m stop next rest) (inside : next ≤ stop) :
    MapEntries m stop mmap (e :: rest) := by
  subst entry follows
  exact .cons large inside tail

theorem MapEntries.le {m : Memory} {stop mmap : ℕ} {entries : List MemoryMap}
    (map : MapEntries m stop mmap entries) : mmap ≤ stop := by
  cases map with
  | nil => exact le_rfl
  | cons _ inside _ => omega

theorem MapEntries.lt_of_mem {m : Memory} {stop mmap : ℕ} {entries : List MemoryMap} {e : MemoryMap}
    (map : MapEntries m stop mmap entries) (member : e ∈ entries) : mmap < stop := by
  cases map with
  | nil => cases member
  | cons _ inside _ => omega

/-- A map survives every memory that keeps the bytes of its buffer. -/
theorem MapEntries.congr {m m' : Memory} {stop mmap : ℕ} {entries : List MemoryMap}
    (map : MapEntries m stop mmap entries)
    (agree : ∀ query, mmap ≤ query → query < stop → m' query = m query) :
    MapEntries m' stop mmap entries := by
  induction map with
  | nil => exact .nil
  | @cons mmap rest large inside _ ih =>
    have same : MemoryMap.read m' mmap = MemoryMap.read m mmap :=
      MemoryMap.read_congr fun query lower upper => agree query lower (by omega)
    rw [← same] at large inside ih ⊢
    exact .cons large inside (ih fun query lower upper => agree query (by omega) upper)

/-- The walk is still inside the buffer at every entry of a map that ends below 4 GiB. -/
theorem mmapInside_of_lt {mmap stop : ℕ} (lt : mmap < stop) (small : stop < 2 ^ 32) :
    mmapInside mmap stop = true := by
  rw [mmapInside, Nat.mod_eq_of_lt (by omega), decide_eq_true lt]

/-- The walk stops at the end of the buffer. -/
theorem mmapInside_end {stop : ℕ} (small : stop < 2 ^ 32) : mmapInside stop stop = false := by
  rw [mmapInside, Nat.mod_eq_of_lt small, decide_eq_false (lt_irrefl stop)]

theorem MemoryMap.next_eq {m : Memory} {mmap stop : ℕ}
    (inside : mmap + (MemoryMap.read m mmap).size + 4 ≤ stop) (small : stop < 2 ^ 32) :
    MemoryMap.next m mmap = mmap + (MemoryMap.read m mmap).size + 4 := by
  rw [MemoryMap.next]
  exact Nat.mod_eq_of_lt (by simp only [MemoryMap.read] at inside; omega)

theorem MapEntries.bounds {m : Memory} {stop mmap : ℕ} {entries : List MemoryMap}
    (map : MapEntries m stop mmap entries) : ∀ e ∈ entries, e.addr < 2 ^ 64 ∧ e.len < 2 ^ 64 := by
  induction map with
  | nil => simp
  | @cons mmap rest _ _ _ ih =>
    intro e member
    rcases List.mem_cons.mp member with rfl | member
    · exact ⟨MemoryMap.addr_lt m mmap, MemoryMap.len_lt m mmap⟩
    · exact ih e member

end RaryOS.Model
