import RaryOS.Proofs.BootTables
import RaryOS.Soundness.PmmRun

/-! # The page allocator never returns a page in use

What the page tables ask of a page allocator holds of `pmm.c`: pages that are held, and pages that
`pmm_init` reserved, are not returned, and neither the allocator nor its clients write to the other's
pages. The boot tables lie in the kernel image, which `pmm_init` reserves.
-/

namespace RaryOS.Soundness

open RaryOS.Core RaryOS.Model

/-- No frame that is free in `init` holds a part of the bitmap, and all frames lie below 2^52. -/
structure PmmClear (init : PmmState) : Prop where
  bitmap : ∀ f < init.pmmMaxBlocks, pmmTestBit init f = false →
    pageSize * (f + 1) ≤ init.pmmBitmap ∨ init.bitsEnd ≤ pageSize * f
  frames : init.pmmMaxBlocks ≤ 2 ^ 40

/-- A page that the allocator will not return: it is held or reserved, and holds no part of the
bitmap. -/
structure PageInUse (init : PmmState) (held : Finset ℕ) (page : ℕ) : Prop where
  used : page ∈ held ∨ ∀ f < init.pmmMaxBlocks, page = pageSize * f → pmmTestBit init f = true
  apart : page + pageSize ≤ init.pmmBitmap ∨ init.bitsEnd ≤ page

/-- The allocator after `init`, with the pages `used` in use. -/
def PmmReady (init s : PmmState) (used : Set ℕ) : Prop :=
  ∃ held, PmmOwned init s held ∧ ∀ page ∈ used, PageInUse init held page

/-- The bitmap lies in no page in use. -/
theorem PmmReady.bitmap_apart {init s : PmmState} {used : Set ℕ} (ready : PmmReady init s used) {query : ℕ}
    (lower : s.pmmBitmap ≤ query) (upper : query < s.bitsEnd) :
    ∀ t ∈ used, query < t ∨ t + 4096 ≤ query := by
  obtain ⟨held, owned, inUse⟩ := ready
  intro t member
  have apart := (inUse t member).apart
  rw [owned.bitmap] at lower
  rw [owned.bitsEnd] at upper
  simp only [pageSize] at apart
  omega

/-- The allocator of `pmm.c` returns pages not in use. -/
theorem pmm_freshPages {init : PmmState} (clear : PmmClear init) :
    FreshPages pmmAllocator (PmmReady init) where
  null s used ready null := by
    obtain ⟨held, owned, inUse⟩ := ready
    exact ⟨held, owned.alloc_null null, inUse⟩
  page s used ready found := by
    obtain ⟨held, owned, inUse⟩ := ready
    have frames := clear.frames
    rcases owned.alloc_cases with ⟨f, bound, address, nonzero, free, unheld, _⟩ | exhausted
    · have place : (pmmAllocator.allocPage s).1 = pageSize * f := address
      rw [owned.maxBlocks] at bound
      rw [place]
      refine ⟨⟨?_, ?_, ?_⟩, fun member => ?_, insert (pageSize * f) held, ?_, ?_⟩
      · simp only [pageSize]
        omega
      · simp only [pageSize]
        omega
      · simp only [pageSize]
        omega
      · rcases (inUse _ member).used with held | reserved
        · exact unheld held
        · rw [reserved f bound rfl] at free
          cases free
      · rw [← address]
        exact owned.alloc_page found
      · rintro page (rfl | member)
        · exact ⟨Or.inl (Finset.mem_insert_self _ _), clear.bitmap f bound free⟩
        · obtain ⟨used, apart⟩ := inUse page member
          exact ⟨used.imp_left (Finset.mem_insert_of_mem ·), apart⟩
    · exact absurd (congrArg Prod.fst exhausted) found
  keeps s used ready t member := by
    obtain ⟨held, owned, inUse⟩ := ready
    have apart := (inUse t member).apart
    intro query lower upper
    rcases owned.alloc_cases with ⟨_, _, _, _, _, _, update, _⟩ | exhausted
    · apply update.outside query
      rw [owned.bitmap, owned.bitsEnd]
      simp only [pageSize] at apart
      omega
    · change (pmmAllocPage s).2.mem query = s.mem query
      rw [exhausted]
  write s used m ready agree := by
    have apart := fun query lower upper => agree query (ready.bitmap_apart lower upper)
    obtain ⟨held, owned, inUse⟩ := ready
    exact ⟨held, owned.congr_mem apart, inUse⟩

section Boot

variable {m : Memory} {mbd : MultibootInfo} {mbdStart kernelEndPhys : ℕ} {entries : List MemoryMap}
  {t : PmmState} (initialized : PmmInitialized m mbd mbdStart kernelEndPhys entries t)
  (kernel : 0x100000 ≤ kernelEndPhys) (physical : kernelEndPhys < 2 ^ 52)
  (bounded : ∀ e ∈ entries, e.addr + e.len ≤ 2 ^ 52)
include initialized kernel physical bounded

theorem bitsEnd_le : t.bitsEnd ≤ kernelEndPhys + pmmBitmapSizeOf (availableTop 0 entries) ∧
    kernelEndPhys + pmmBitmapSizeOf (availableTop 0 entries) < 2 ^ 63 := by
  have top := availableTop_le (2 ^ 52) (Nat.zero_le _) bounded
  have size := pmmBitmapSizeOf_lt top
  have words := words_le_bitmapSize (availableTop 0 entries)
  refine ⟨?_, by omega⟩
  rw [PmmState.bitsEnd, PmmState.words, initialized.bitmap, initialized.maxBlocks]
  omega

theorem pmmClear_of_initialized : PmmClear t := by
  have top := availableTop_le (2 ^ 52) (Nat.zero_le _) bounded
  obtain ⟨inside, small⟩ := bitsEnd_le initialized kernel physical bounded
  constructor
  · intro f bound free
    rw [initialized.bitmap]
    rcases free_outside_bitmap initialized small bound free with low | behind
    · exact Or.inl (Nat.le_trans low kernel)
    · exact Or.inr (Nat.le_trans inside behind)
  · rw [initialized.maxBlocks]
    simp only [pmmMaxBlocksOf, alignDown, pageSize]
    omega

/-- Pages of the kernel image are in use from the start. -/
theorem image_inUse {page : ℕ} (above : 0x100000 ≤ page) (below : page + pageSize ≤ kernelEndPhys) :
    PageInUse t ∅ page := by
  obtain ⟨_, small⟩ := bitsEnd_le initialized kernel physical bounded
  refine ⟨Or.inr fun f bound place => ?_, Or.inl ?_⟩
  · rw [← Bool.not_eq_false]
    intro free
    simp only [pageSize] at place below
    rcases free_outside_bitmap initialized small bound free with low | behind
    · simp only [pageSize] at low
      omega
    · simp only [pageSize] at behind
      omega
  · rw [initialized.bitmap]
    exact below

end Boot

end RaryOS.Soundness
