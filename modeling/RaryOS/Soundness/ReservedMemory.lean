import RaryOS.Soundness.PmmInitFree

/-! # Memory that the map reserves

`pmm_init` frees the whole pages of the available regions and then takes back what it keeps for itself. Its
two walks pass over the regions of every other type. So a page of such a region stays reserved exactly as
long as no available region contains the whole page, or `pmm_init` keeps it anyway.
-/

namespace RaryOS.Soundness

open RaryOS.Core RaryOS.Model

/-- Some byte of page `p` lies in a region that is not available. -/
def MeetsReserved (entries : List MemoryMap) (p : ℕ) : Prop :=
  ∃ r ∈ entries, r.type ≠ 1 ∧ PageMeets p r.addr (r.addr + r.len)

/-- The available region `e` frees no frame, of the `blocks` in the bitmap, that meets the region `r`, apart
from frames that are kept. -/
def Spares (blocks : ℕ) (keeps : ℕ → Prop) (e r : MemoryMap) : Prop :=
  ∀ p < blocks, RegionFrees e.addr e.len p → PageMeets p r.addr (r.addr + r.len) → keeps p

/-- The frames that `pmm_init` keeps: low memory, the kernel and the bitmap, the information structure and
the memory map. -/
def InitKeeps (mbd : MultibootInfo) (mbdStart kernelEndPhys : ℕ) (entries : List MemoryMap) : ℕ → Prop :=
  Reserved (pmmInitPlace { mem := fun _ => 0 } (availableTop 0 entries) kernelEndPhys) mbd mbdStart

/-- Up to the last page of the address space, rounding a region inwards is exact. -/
theorem regionFrees_iff_of_noWrap {base size : ℕ} (p : ℕ) (low : base + (pageSize - 1) < 2 ^ 64)
    (bounded : base + size < 2 ^ 64) : RegionFrees base size p ↔ PageInside p base (base + size) := by
  rw [RegionFrees, alignUp, alignDown, Nat.mod_eq_of_lt low, Nat.mod_eq_of_lt bounded]
  simp only [PageInside, pageSize]
  omega

/-- A region spares those that share no byte with it. -/
theorem spares_of_disjoint {blocks : ℕ} {keeps : ℕ → Prop} {e r : MemoryMap}
    (low : e.addr + (pageSize - 1) < 2 ^ 64) (bounded : e.addr + e.len < 2 ^ 64)
    (disjoint : e.addr + e.len ≤ r.addr ∨ r.addr + r.len ≤ e.addr) : Spares blocks keeps e r := by
  intro p _ frees meets
  rw [regionFrees_iff_of_noWrap p low bounded, PageInside] at frees
  rw [pageMeets_iff] at meets
  omega

/-- For every map apart from the bitmap that `pmm_init` accepts, in any order and with any overlaps: no
frame that meets a region of another type than available is free exactly when every available region
spares every such region. -/
theorem reserved_wins_iff {m : Memory} {mbd : MultibootInfo} {mbdStart kernelEndPhys : ℕ}
    {entries : List MemoryMap} {t : PmmState} (hasMap : mbd.hasMemMap = true) (addr : mbd.mmapAddr < 2 ^ 32)
    (length : mbd.mmapLength < 2 ^ 32)
    (map : MapEntries m (mbd.mmapAddr + mbd.mmapLength) mbd.mmapAddr entries)
    (apart : ∀ query, mbd.mmapAddr ≤ query → query < mbd.mmapAddr + mbd.mmapLength →
      query < kernelEndPhys ∨ kernelEndPhys + pmmBitmapSizeOf (availableTop 0 entries) ≤ query)
    (accepts : PmmAccepts { mem := m } mbd mbdStart kernelEndPhys t) :
    (∀ p, MeetsReserved entries p → ¬Free t p) ↔
      (mbd.mmapAddr + mbd.mmapLength < 2 ^ 32 → ∀ e ∈ entries, e.type = 1 → ∀ r ∈ entries, r.type ≠ 1 →
        Spares (pmmMaxBlocksOf (availableTop 0 entries)) (InitKeeps mbd mbdStart kernelEndPhys entries) e r) := by
  rcases walked_or_not addr length with ⟨small, ending⟩ | outside
  · rw [← ending] at map apart
    obtain ⟨_, initialized⟩ := PmmAccepts.initialized hasMap map apart accepts
    have blocks := initialized.maxBlocks
    have keeps (p : ℕ) : Reserved t mbd mbdStart p ↔ InitKeeps mbd mbdStart kernelEndPhys entries p := by
      rw [InitKeeps, Reserved, Reserved, initialized.bitmap, initialized.bitmapSize]
      rfl
    have free (p : ℕ) : Free t p ↔ p < pmmMaxBlocksOf (availableTop 0 entries) ∧ Released entries p ∧
        ¬InitKeeps mbd mbdStart kernelEndPhys entries p := by
      have place := words_le_bitmapSize (availableTop 0 entries)
      rw [Free, initialized.bitmapSize, ← keeps, ← blocks]
      constructor
      · rintro ⟨inside, clear⟩
        by_cases bound : p < t.pmmMaxBlocks
        · exact ⟨bound, (initialized.free_iff p bound).mp clear⟩
        · rw [initialized.tail p (by omega) (by rwa [initialized.bitmapSize])] at clear
          cases clear
      · rintro ⟨bound, released⟩
        exact ⟨by omega, (initialized.free_iff p bound).mpr released⟩
    constructor
    · intro wins _ e member available r other type p bound frees meets
      by_contra lost
      exact wins p ⟨r, other, type, meets⟩ ((free p).mpr ⟨bound, ⟨e, member, available, frees⟩, lost⟩)
    · rintro spares p ⟨r, other, type, meets⟩ isFree
      obtain ⟨bound, ⟨e, member, available, frees⟩, lost⟩ := (free p).mp isFree
      exact lost (spares small e member available r other type p bound frees meets)
  · obtain ⟨blocks, size⟩ := (pmmInit_unwalked hasMap outside).2 t accepts
    constructor
    · intro _ small e member
      have inside := map.lt_of_mem member
      rw [mmapInside, MultibootInfo.mmapEnd, Nat.mod_eq_of_lt small, decide_eq_false_iff_not] at outside
      omega
    · rintro _ p _ ⟨inside, _⟩
      rw [size] at inside
      omega

/-! The sample machine with a reserved page next to its memory, and with one inside it. -/

def besideMemory : MemoryMap := ⟨20, 0x9FC00, 0x400, 2⟩
def insideMemory : MemoryMap := ⟨20, 0x4000000, 0x1000, 2⟩

theorem reserved_wins_iff_sample :
    ∃ t, PmmAccepts { mem := twoEntries highMemory besideMemory } sampleInfo 0x14F000 0x200000 t ∧
      ∀ p, MeetsReserved [highMemory, besideMemory] p → ¬Free t p := by
  have map : MapEntries (twoEntries highMemory besideMemory) 0x150030 0x150000 [highMemory, besideMemory] :=
    twoEntries_map (by decide) (by decide)
  have boot := pmmBoot_of_map map (by decide)
  obtain ⟨t, accepts⟩ := boot.accepts
  refine ⟨t, accepts, (reserved_wins_iff boot.hasMap boot.addr32 boot.length32 boot.map boot.mapApart
    accepts).mpr fun _ e member available r other type => ?_⟩
  obtain rfl : e = highMemory := by
    simp only [List.mem_cons, List.not_mem_nil, or_false] at member
    rcases member with rfl | rfl
    · rfl
    · cases available
  obtain rfl : r = besideMemory := by
    simp only [List.mem_cons, List.not_mem_nil, or_false] at other
    rcases other with rfl | rfl
    · exact absurd rfl type
    · rfl
  exact spares_of_disjoint (by decide) (by decide) (by decide)

/-- The reserved page inside the memory is free. -/
theorem reserved_wins_fails :
    ∃ t, PmmBoot (twoEntries highMemory insideMemory) sampleInfo 0x14F000 0x200000 [highMemory, insideMemory] ∧
      PmmAccepts { mem := twoEntries highMemory insideMemory } sampleInfo 0x14F000 0x200000 t ∧
      MeetsReserved [highMemory, insideMemory] 0x4000 ∧ Free t 0x4000 := by
  have map : MapEntries (twoEntries highMemory insideMemory) 0x150030 0x150000 [highMemory, insideMemory] :=
    twoEntries_map (by decide) (by decide)
  have boot := pmmBoot_of_map map (by decide)
  obtain ⟨t, accepts⟩ := boot.accepts
  obtain ⟨_, initialized⟩ := accepts.initialized boot.hasMap map boot.mapApart
  have blocks : t.pmmMaxBlocks = 0x8000 := initialized.maxBlocks.trans (by decide)
  have size : t.pmmBitmapSize = 4096 := initialized.bitmapSize.trans (by decide)
  refine ⟨t, boot, accepts, ⟨insideMemory, by decide, by decide, ?_⟩, ?_⟩
  · rw [pageMeets_iff]
    decide
  · refine (boot.free_iff accepts 0x4000).mpr
      ⟨by omega, ⟨highMemory, by decide, rfl, by decide, by decide⟩, ?_⟩
    simp only [pageMeets_iff, size]
    decide

end RaryOS.Soundness
