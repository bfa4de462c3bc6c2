import RaryOS.Proofs.PmmInit

/-! # Which frames are free after `pmm_init`

For a map of ordinary physical regions the rounded comparisons of the code say what they should: a
frame is free exactly when its whole page is available memory and it touches nothing that must stay
reserved. The statement covers every frame that has a bit, the padding past `pmm_max_blocks` included.
-/

namespace RaryOS.Soundness

open RaryOS.Core RaryOS.Model

/-- A frame with a clear bit in the bitmap. -/
def Free (t : PmmState) (p : ℕ) : Prop := p / 8 < t.pmmBitmapSize ∧ pmmTestBit t p = false

/-- Some byte of page `p` lies in `[low, high)`. -/
def PageMeets (p low high : ℕ) : Prop :=
  ∃ x, pageSize * p ≤ x ∧ x < pageSize * (p + 1) ∧ low ≤ x ∧ x < high

/-- Every byte of page `p` lies in `[low, high)`. -/
def PageInside (p low high : ℕ) : Prop := low ≤ pageSize * p ∧ pageSize * (p + 1) ≤ high

theorem pageMeets_iff (p low high : ℕ) :
    PageMeets p low high ↔ pageSize * p < high ∧ low < pageSize * (p + 1) ∧ low < high := by
  simp only [PageMeets, pageSize]
  constructor
  · rintro ⟨x, _⟩
    omega
  · intro overlap
    exact ⟨max (4096 * p) low, by omega⟩

/-- Rounding an available region inwards keeps exactly the pages inside it. -/
theorem regionFrees_iff {base size : ℕ} (p : ℕ) (bounded : base + size ≤ 2 ^ 52) :
    RegionFrees base size p ↔ PageInside p base (base + size) := by
  simp only [RegionFrees, PageInside, alignUp, alignDown, pageSize]
  omega

/-- Rounding a nonempty reserved range outwards keeps exactly the pages that meet it. -/
theorem regionReserves_iff (low high p : ℕ) (ordered : low < high) (bounded : high < 2 ^ 63) :
    RegionReserves low ((high + (2 ^ 64 - low)) % 2 ^ 64) p ↔ PageMeets p low high := by
  have size : (low + (high + (2 ^ 64 - low)) % 2 ^ 64) % 2 ^ 64 = high := by omega
  rw [RegionReserves, size, pageMeets_iff]
  simp only [alignUp, alignDown, pageSize]
  omega

/-- An information structure at the very top of the address space meets no frame of the bitmap; its
reservation, which wraps, reserves none. -/
theorem infoReserves_iff {start p : ℕ} (fits : start + sizeofMultibootInfo ≤ 2 ^ 64)
    (frame : p < 2 ^ 40) :
    RegionReserves start
        (((start + sizeofMultibootInfo) % 2 ^ 64 + (2 ^ 64 - start)) % 2 ^ 64) p ↔
      PageMeets p start (start + sizeofMultibootInfo) := by
  simp only [sizeofMultibootInfo] at fits ⊢
  by_cases low : start + 118 < 2 ^ 63
  · rw [Nat.mod_eq_of_lt (show start + 118 < 2 ^ 64 by omega)]
    exact regionReserves_iff _ _ p (by omega) low
  · rw [RegionReserves, pageMeets_iff]
    simp only [alignUp, alignDown, pageSize]
    omega

theorem availableTop_le {top : ℕ} (bound : ℕ) {entries : List MemoryMap} (start : top ≤ bound)
    (bounded : ∀ e ∈ entries, e.addr + e.len ≤ bound) : availableTop top entries ≤ bound := by
  induction entries generalizing top with
  | nil => exact start
  | cons e rest ih =>
    rw [availableTop]
    have first := bounded e List.mem_cons_self
    refine ih ?_ fun e member => bounded e (List.mem_cons_of_mem _ member)
    split
    · exact (Nat.mod_le _ _).trans first
    · exact start

/-- What the caller of `pmm_init` guarantees: a map of well-formed physical regions, a kernel above
1 MiB, a bitmap area that does not contain the map, and 32-bit fields. -/
structure PmmBoot (m : Memory) (mbd : MultibootInfo) (mbdStart kernelEndPhys : ℕ)
    (entries : List MemoryMap) : Prop where
  hasMap : mbd.hasMemMap = true
  addr32 : mbd.mmapAddr < 2 ^ 32
  length32 : mbd.mmapLength < 2 ^ 32
  map : MapEntries m (mbd.mmapAddr + mbd.mmapLength) mbd.mmapAddr entries
  bounded : ∀ e ∈ entries, e.addr + e.len ≤ 2 ^ 52
  kernel : 0x100000 ≤ kernelEndPhys
  physical : kernelEndPhys < 2 ^ 52
  info : mbdStart + sizeofMultibootInfo ≤ 2 ^ 64
  mapApart : ∀ query, mbd.mmapAddr ≤ query → query < mbd.mmapAddr + mbd.mmapLength →
    query < kernelEndPhys ∨ kernelEndPhys + pmmBitmapSizeOf (availableTop 0 entries) ≤ query

/-- The first walk takes a buffer that ends below 4 GiB, or it ends at once. -/
theorem walked_or_not {mbd : MultibootInfo} (addr : mbd.mmapAddr < 2 ^ 32) (length : mbd.mmapLength < 2 ^ 32) :
    (mbd.mmapAddr + mbd.mmapLength < 2 ^ 32 ∧ mbd.mmapEnd = mbd.mmapAddr + mbd.mmapLength) ∨
      mmapInside mbd.mmapAddr mbd.mmapEnd = false := by
  by_cases small : mbd.mmapAddr + mbd.mmapLength < 2 ^ 32
  · exact Or.inl ⟨small, Nat.mod_eq_of_lt small⟩
  · right
    rw [mmapInside, MultibootInfo.mmapEnd]
    exact decide_eq_false (by omega)

/-- A map that is not walked leaves an empty bitmap. -/
theorem pmmInit_unwalked {m : Memory} {mbd : MultibootInfo} {mbdStart kernelEndPhys : ℕ}
    (hasMap : mbd.hasMemMap = true) (outside : mmapInside mbd.mmapAddr mbd.mmapEnd = false) :
    (∃ t, PmmAccepts { mem := m } mbd mbdStart kernelEndPhys t) ∧
      ∀ t, PmmAccepts { mem := m } mbd mbdStart kernelEndPhys t →
        t.pmmMaxBlocks = 0 ∧ t.pmmBitmapSize = 0 := by
  have scan : pmmInitScan m mbd.mmapEnd (mbd.mmapAddr, 0) = .inr (.ok 0) := by
    simp only [pmmInitScan, outside, Bool.false_eq_true, if_false]
  have release (s : PmmState) : pmmInitRelease mbd.mmapEnd (s, mbd.mmapAddr) = .inr s := by
    simp only [pmmInitRelease, outside, Bool.false_eq_true, if_false]
  refine ⟨⟨_, pmmInit_of_returns hasMap (.of_stop scan) (.of_stop (release _))⟩, ?_⟩
  rintro t ⟨fuel, ok⟩
  obtain ⟨top, placed, scanned, released, rfl⟩ := pmmInit_ok ok hasMap
  have zero : (.ok 0 : Except PmmPanic ℕ) = .ok top := (Returns.stop_iff scan).mp scanned
  obtain rfl := (Except.ok.inj zero)
  obtain rfl := (Returns.stop_iff (release _)).mp released
  have reserve := pmmInitReserve_update (pmmInitPlace { mem := m } 0 kernelEndPhys) mbd mbdStart
  obtain ⟨g, tail, _⟩ :=
    pmmInitTail_update (pmmInitReserve (pmmInitPlace { mem := m } 0 kernelEndPhys) mbd mbdStart)
  exact ⟨(reserve.trans tail).maxBlocks, (reserve.trans tail).bitmapSize⟩

namespace PmmBoot

variable {m : Memory} {mbd : MultibootInfo} {mbdStart kernelEndPhys : ℕ} {entries : List MemoryMap}

theorem noWrap (boot : PmmBoot m mbd mbdStart kernelEndPhys entries) : ∀ e ∈ entries, e.NoWrap := by
  intro e member _
  have := boot.bounded e member
  omega

/-- The reservations, in exact arithmetic, for a frame of a map that was walked. -/
private theorem reserved_iff (boot : PmmBoot m mbd mbdStart kernelEndPhys entries) {t : PmmState}
    (initialized : PmmInitialized m mbd mbdStart kernelEndPhys entries t)
    (small : mbd.mmapAddr + mbd.mmapLength < 2 ^ 32) (nonempty : 0 < mbd.mmapLength) {p : ℕ}
    (frame : p < t.pmmMaxBlocks) :
    Reserved t mbd mbdStart p ↔
      PageMeets p 0 0x100000 ∨ PageMeets p 0x100000 (kernelEndPhys + t.pmmBitmapSize) ∨
        PageMeets p mbdStart (mbdStart + sizeofMultibootInfo) ∨
        PageMeets p mbd.mmapAddr (mbd.mmapAddr + mbd.mmapLength) := by
  have top := availableTop_le (2 ^ 52) (Nat.zero_le _) boot.bounded
  have blocks := initialized.maxBlocks
  have size := initialized.bitmapSize
  have kernel := boot.kernel
  have physical := boot.physical
  have ending : mbd.mmapEnd = mbd.mmapAddr + mbd.mmapLength := Nat.mod_eq_of_lt small
  have frames : t.pmmMaxBlocks ≤ 2 ^ 40 := by
    rw [blocks]
    simp only [pmmMaxBlocksOf, alignDown, pageSize]
    omega
  have bitmap : 0 < t.pmmBitmapSize ∧ t.pmmBitmapSize ≤ 2 ^ 38 := by
    rw [size]
    simp only [pmmBitmapSizeOf, ← blocks, alignDown, pageSize]
    omega
  have low : RegionReserves 0 (1024 * 1024) p ↔ PageMeets p 0 0x100000 :=
    regionReserves_iff 0 0x100000 p (by omega) (by omega)
  have area := regionReserves_iff 0x100000 (kernelEndPhys + t.pmmBitmapSize) p
    (by omega) (by omega)
  have info := infoReserves_iff (p := p) boot.info (by omega)
  have buffer := regionReserves_iff mbd.mmapAddr (mbd.mmapAddr + mbd.mmapLength) p
    (by omega) (by omega)
  rw [Reserved, initialized.bitmap, ending, low, info, buffer,
    Nat.mod_eq_of_lt (show kernelEndPhys + t.pmmBitmapSize < 2 ^ 64 by omega), area]

theorem accepts (boot : PmmBoot m mbd mbdStart kernelEndPhys entries) :
    ∃ t, PmmAccepts { mem := m } mbd mbdStart kernelEndPhys t := by
  rcases walked_or_not boot.addr32 boot.length32 with ⟨_, ending⟩ | outside
  · have map : MapEntries m mbd.mmapEnd mbd.mmapAddr entries := ending ▸ boot.map
    have apart := boot.mapApart
    rw [← ending] at apart
    exact pmmInit_accepts boot.hasMap map apart boot.noWrap
  · exact (@pmmInit_unwalked m mbd mbdStart kernelEndPhys boot.hasMap outside).1

/-- The free frames, in exact arithmetic. -/
theorem free_iff (boot : PmmBoot m mbd mbdStart kernelEndPhys entries) {t : PmmState}
    (accepts : PmmAccepts { mem := m } mbd mbdStart kernelEndPhys t) (p : ℕ) :
    Free t p ↔ p < t.pmmMaxBlocks ∧
      (∃ e ∈ entries, e.type = 1 ∧ PageInside p e.addr (e.addr + e.len)) ∧
      ¬PageMeets p 0 0x100000 ∧
      ¬PageMeets p 0x100000 (kernelEndPhys + t.pmmBitmapSize) ∧
      ¬PageMeets p mbdStart (mbdStart + sizeofMultibootInfo) ∧
      ¬PageMeets p mbd.mmapAddr (mbd.mmapAddr + mbd.mmapLength) := by
  rcases walked_or_not boot.addr32 boot.length32 with ⟨small, ending⟩ | outside
  · have map : MapEntries m mbd.mmapEnd mbd.mmapAddr entries := ending ▸ boot.map
    have apart := boot.mapApart
    rw [← ending] at apart
    obtain ⟨_, initialized⟩ := PmmAccepts.initialized boot.hasMap map apart accepts
    have inBitmap : p < t.pmmMaxBlocks → p / 8 < t.pmmBitmapSize := by
      have place := words_le_bitmapSize (availableTop 0 entries)
      rw [initialized.maxBlocks, initialized.bitmapSize]
      omega
    have released : Released entries p ↔
        ∃ e ∈ entries, e.type = 1 ∧ PageInside p e.addr (e.addr + e.len) :=
      exists_congr fun e => and_congr_right fun member => and_congr_right fun _ =>
        regionFrees_iff p (boot.bounded e member)
    rw [Free]
    by_cases frame : p < t.pmmMaxBlocks
    · rw [initialized.free_iff p frame, released]
      simp only [inBitmap frame, frame, true_and]
      apply and_congr_right
      rintro ⟨e, member, _⟩
      have nonempty : 0 < mbd.mmapLength := by
        have := map.lt_of_mem member
        omega
      rw [boot.reserved_iff initialized small nonempty frame]
      simp only [not_or]
    · simp only [frame, false_and, iff_false, not_and]
      intro inside
      rw [initialized.tail p (by omega) inside]
      decide
  · obtain ⟨blocks, size⟩ := (@pmmInit_unwalked m mbd mbdStart kernelEndPhys boot.hasMap outside).2 t accepts
    simp only [Free, blocks, size, Nat.not_lt_zero, false_and]

/-- The bitmap has a bit for every whole page below the highest end of an available region. -/
theorem maxBlocks_iff (boot : PmmBoot m mbd mbdStart kernelEndPhys entries) {t : PmmState}
    (accepts : PmmAccepts { mem := m } mbd mbdStart kernelEndPhys t) (n : ℕ) :
    n ≤ t.pmmMaxBlocks ↔
      n = 0 ∨ mbd.mmapAddr + mbd.mmapLength < 2 ^ 32 ∧ ∃ e ∈ entries, e.type = 1 ∧ pageSize * n ≤ e.addr + e.len := by
  have below (e : MemoryMap) (member : e ∈ entries) : (e.addr + e.len) % 2 ^ 64 = e.addr + e.len :=
    Nat.mod_eq_of_lt ((boot.bounded e member).trans_lt (by decide))
  rcases walked_or_not boot.addr32 boot.length32 with ⟨small, ending⟩ | outside
  · have map : MapEntries m mbd.mmapEnd mbd.mmapAddr entries := ending ▸ boot.map
    have apart := boot.mapApart
    rw [← ending] at apart
    obtain ⟨_, initialized⟩ := PmmAccepts.initialized boot.hasMap map apart accepts
    have quotient : n ≤ t.pmmMaxBlocks ↔ pageSize * n ≤ availableTop 0 entries := by
      rw [initialized.maxBlocks]
      simp only [pmmMaxBlocksOf, alignDown, pageSize]
      omega
    rw [quotient]
    constructor
    · intro fits
      rcases availableTop_attained 0 entries with zero | ⟨e, member, available, top⟩
      · rw [zero] at fits
        simp only [pageSize] at fits
        exact Or.inl (by omega)
      · rw [top, below e member] at fits
        exact Or.inr ⟨small, e, member, available, fits⟩
    · rintro (rfl | ⟨-, e, member, available, fits⟩)
      · exact Nat.zero_le _
      · rw [← below e member] at fits
        exact fits.trans (end_le_availableTop member available)
  · obtain ⟨blocks, _⟩ := (@pmmInit_unwalked m mbd mbdStart kernelEndPhys boot.hasMap outside).2 t accepts
    rw [blocks, Nat.le_zero]
    refine ⟨Or.inl, fun fits => ?_⟩
    rcases fits with zero | ⟨small, e, member, -⟩
    · exact zero
    · -- a map that ends below 4 GiB and is not walked has no entries
      rw [mmapInside, MultibootInfo.mmapEnd, Nat.mod_eq_of_lt small, decide_eq_false_iff_not] at outside
      have first := boot.map.lt_of_mem member
      have address := boot.addr32
      omega

end PmmBoot

/-- `pmm_init` accepts every such map, and then a frame is free exactly when its whole page lies in
one available region, below `pmm_max_blocks`, and meets none of the four reserved ranges. There are
`pmm_max_blocks` whole pages below the highest end of an available region, or none when the buffer of
the map reaches beyond 4 GiB. -/
theorem pmmInit_free_iff {m : Memory} {mbd : MultibootInfo} {mbdStart kernelEndPhys : ℕ}
    {entries : List MemoryMap} (boot : PmmBoot m mbd mbdStart kernelEndPhys entries) :
    (∃ t, PmmAccepts { mem := m } mbd mbdStart kernelEndPhys t) ∧
      ∀ t, PmmAccepts { mem := m } mbd mbdStart kernelEndPhys t →
        (∀ p, Free t p ↔ p < t.pmmMaxBlocks ∧
          (∃ e ∈ entries, e.type = 1 ∧ PageInside p e.addr (e.addr + e.len)) ∧
          ¬PageMeets p 0 0x100000 ∧
          ¬PageMeets p 0x100000 (kernelEndPhys + t.pmmBitmapSize) ∧
          ¬PageMeets p mbdStart (mbdStart + sizeofMultibootInfo) ∧
          ¬PageMeets p mbd.mmapAddr (mbd.mmapAddr + mbd.mmapLength)) ∧
        ∀ n, n ≤ t.pmmMaxBlocks ↔ n = 0 ∨ mbd.mmapAddr + mbd.mmapLength < 2 ^ 32 ∧
          ∃ e ∈ entries, e.type = 1 ∧ pageSize * n ≤ e.addr + e.len :=
  ⟨boot.accepts, fun _ accepts => ⟨boot.free_iff accepts, boot.maxBlocks_iff accepts⟩⟩

/-- A frame that `pmm_init` left free lies below 1 MiB or behind the bitmap. -/
theorem free_outside_bitmap {m : Memory} {mbd : MultibootInfo} {mbdStart kernelEndPhys : ℕ}
    {entries : List MemoryMap} {t : PmmState}
    (initialized : PmmInitialized m mbd mbdStart kernelEndPhys entries t)
    (ending : kernelEndPhys + pmmBitmapSizeOf (availableTop 0 entries) < 2 ^ 63) {f : ℕ}
    (bound : f < t.pmmMaxBlocks) (free : pmmTestBit t f = false) :
    pageSize * (f + 1) ≤ 0x100000 ∨
      kernelEndPhys + pmmBitmapSizeOf (availableTop 0 entries) ≤ pageSize * f := by
  obtain ⟨_, unreserved⟩ := (initialized.free_iff f bound).mp free
  by_contra both
  have nonempty : 0x100000 < kernelEndPhys + pmmBitmapSizeOf (availableTop 0 entries) := by
    simp only [pageSize] at both
    omega
  refine unreserved (Or.inr (Or.inl ?_))
  rw [initialized.bitmap, initialized.bitmapSize, Nat.mod_eq_of_lt (Nat.lt_trans ending (by decide)),
    regionReserves_iff 0x100000 _ f nonempty ending, pageMeets_iff]
  omega

/-- The bitmap for memory below 2^52 is small. -/
theorem pmmBitmapSizeOf_lt {entries : List MemoryMap} (top : availableTop 0 entries ≤ 2 ^ 52) :
    pmmBitmapSizeOf (availableTop 0 entries) < 2 ^ 52 := by
  simp only [pmmBitmapSizeOf, pmmMaxBlocksOf, alignDown, pageSize]
  omega

/-! A small virtual machine: 639 KiB of low memory and the range from 1 MiB to 128 MiB, described by
two entries inside the kernel image. The theorems about boots are instantiated with it. -/

def lowMemory : MemoryMap := ⟨20, 0, 0x9FC00, 1⟩
def highMemory : MemoryMap := ⟨20, 0x100000, 0x7F00000, 1⟩

/-- Two entries at 0x150000, over memory that is zero elsewhere. -/
def twoEntries (first second : MemoryMap) : Memory :=
  MemoryMap.write (MemoryMap.write (fun _ => 0) 0x150000 first) 0x150018 second

/-- An entry as `multiboot_memory_map_t` can hold it, of the usual size. -/
def MemoryMap.Plain (e : MemoryMap) : Prop :=
  e.size = 20 ∧ e.addr < 2 ^ 64 ∧ e.len < 2 ^ 64 ∧ e.type < 2 ^ 32

instance (e : MemoryMap) : Decidable (MemoryMap.Plain e) := inferInstanceAs (Decidable (_ ∧ _))

theorem twoEntries_map {first second : MemoryMap} (plainFirst : MemoryMap.Plain first)
    (plainSecond : MemoryMap.Plain second) :
    MapEntries (twoEntries first second) 0x150030 0x150000 [first, second] := by
  obtain ⟨size₁, addr₁, len₁, type₁⟩ := plainFirst
  obtain ⟨size₂, addr₂, len₂, type₂⟩ := plainSecond
  have readSecond : MemoryMap.read (twoEntries first second) 0x150018 = second :=
    MemoryMap.read_write _ _ (by omega) addr₂ len₂ type₂
  have readFirst : MemoryMap.read (twoEntries first second) 0x150000 = first := by
    rw [twoEntries, MemoryMap.read_congr fun query _ upper =>
      MemoryMap.write_apply_of_outside _ _ (Or.inl (by omega))]
    exact MemoryMap.read_write _ _ (by omega) addr₁ len₁ type₁
  have tail : MapEntries (twoEntries first second) 0x150030 0x150018 [second] :=
    .cons_of_read readSecond (by omega) (by omega) .nil (by omega)
  exact .cons_of_read readFirst (by omega) (by omega) tail (by omega)

def sampleMemory : Memory := twoEntries lowMemory highMemory

def sampleInfo : MultibootInfo where
  flags := multibootInfoMemory ||| multibootInfoMemMap
  memLower := 639
  memUpper := 130048
  mmapLength := 48
  mmapAddr := 0x150000

theorem sampleMap : MapEntries sampleMemory 0x150030 0x150000 [lowMemory, highMemory] :=
  twoEntries_map (by decide) (by decide)

theorem sampleBitmapSize : pmmBitmapSizeOf (availableTop 0 [lowMemory, highMemory]) = 4096 := by decide

/-- The machine may start with any map at the place of its entries. -/
theorem pmmBoot_of_map {m : Memory} {entries : List MemoryMap}
    (map : MapEntries m 0x150030 0x150000 entries) (bounded : ∀ e ∈ entries, e.addr + e.len ≤ 2 ^ 52) :
    PmmBoot m sampleInfo 0x14F000 0x200000 entries where
  hasMap := by decide
  addr32 := by decide
  length32 := by decide
  map := map
  bounded := bounded
  kernel := by decide
  physical := by decide
  info := by decide
  mapApart query lower upper := by
    simp only [sampleInfo] at upper
    exact Or.inl (by omega)

theorem sampleBoot :
    PmmBoot sampleMemory sampleInfo 0x14F000 0x200000 [lowMemory, highMemory] :=
  pmmBoot_of_map sampleMap (by decide)

theorem sampleBoot_geometry {t : PmmState}
    (accepts : PmmAccepts { mem := sampleMemory } sampleInfo 0x14F000 0x200000 t) :
    t.pmmMaxBlocks = 0x8000 ∧ t.pmmBitmapSize = 4096 := by
  obtain ⟨_, initialized⟩ := accepts.initialized sampleBoot.hasMap sampleMap sampleBoot.mapApart
  exact ⟨initialized.maxBlocks.trans (by decide), initialized.bitmapSize.trans sampleBitmapSize⟩

/-- The sample machine has a page behind its kernel for the bitmap, and then free frames only. -/
theorem sampleBoot_free {t : PmmState}
    (accepts : PmmAccepts { mem := sampleMemory } sampleInfo 0x14F000 0x200000 t) {p : ℕ} (behind : 513 ≤ p)
    (inside : p < 0x8000) : Free t p := by
  obtain ⟨blocks, size⟩ := sampleBoot_geometry accepts
  refine (sampleBoot.free_iff accepts p).mpr ⟨by omega, ⟨highMemory, by decide, rfl, ?_, ?_⟩, ?_⟩
  · simp only [highMemory, pageSize]
    omega
  · simp only [highMemory, pageSize]
    omega
  · simp only [pageMeets_iff, size, pageSize, sizeofMultibootInfo, sampleInfo]
    omega

/-- Frame 513 is free, the frame of the bitmap before it is not, and there are 0x8000 frames. -/
theorem pmmInit_free_iff_sample :
    ∃ t, PmmAccepts { mem := sampleMemory } sampleInfo 0x14F000 0x200000 t ∧ Free t 513 ∧ ¬Free t 512 ∧
      0x8000 ≤ t.pmmMaxBlocks ∧ ¬0x8001 ≤ t.pmmMaxBlocks := by
  obtain ⟨t, accepts⟩ := (pmmInit_free_iff sampleBoot).1
  obtain ⟨free, blocks⟩ := (pmmInit_free_iff sampleBoot).2 t accepts
  have size := (sampleBoot_geometry accepts).2
  have enough : 0x8000 ≤ t.pmmMaxBlocks :=
    (blocks 0x8000).mpr (Or.inr ⟨by decide, highMemory, by decide, rfl, by decide⟩)
  have meets : ¬PageMeets 513 0 0x100000 ∧ ¬PageMeets 513 0x100000 (0x200000 + t.pmmBitmapSize) ∧
      ¬PageMeets 513 0x14F000 (0x14F000 + sizeofMultibootInfo) ∧
      ¬PageMeets 513 sampleInfo.mmapAddr (sampleInfo.mmapAddr + sampleInfo.mmapLength) := by
    simp only [pageMeets_iff, size]
    decide
  refine ⟨t, accepts, (free 513).mpr ⟨by omega, ⟨highMemory, by decide, rfl, by decide, by decide⟩, meets⟩,
    fun used => ?_, enough, fun more => ?_⟩
  · refine ((free 512).mp used).2.2.2.1 ?_
    rw [pageMeets_iff, size]
    decide
  · rcases (blocks 0x8001).mp more with zero | ⟨_, e, member, _, inside⟩
    · cases zero
    · have ends : ∀ e ∈ [lowMemory, highMemory], e.addr + e.len < pageSize * 0x8001 := by decide
      exact absurd inside (Nat.not_le.mpr (ends e member))

end RaryOS.Soundness
