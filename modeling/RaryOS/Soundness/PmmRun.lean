import RaryOS.Core.Path
import RaryOS.Soundness.PmmInitFree

/-! # The page allocator over whole runs

A run starts after `pmm_init` and consists of `pmm_alloc_page` calls and of `pmm_free_page` calls for
addresses that are held, that is returned by an earlier allocation and not freed since. The frames
marked used are then always those `pmm_init` marked together with those that are held.
-/

namespace RaryOS.Soundness

open RaryOS.Core RaryOS.Model

/-- The allocator and the page addresses its callers hold. -/
structure PmmSystem where
  pmm : PmmState
  held : Finset ℕ

inductive PmmCall where
  | alloc
  | free (page : ℕ)
deriving DecidableEq, Repr

/-- One call. `NULL` is no address, so an exhausted allocation adds nothing to what is held. -/
inductive PmmStep : PmmSystem → PmmCall → PmmSystem → Prop
  | alloc (s : PmmSystem) : (pmmAllocPage s.pmm).1 ≠ 0 →
      PmmStep s .alloc ⟨(pmmAllocPage s.pmm).2, insert (pmmAllocPage s.pmm).1 s.held⟩
  | exhausted (s : PmmSystem) : (pmmAllocPage s.pmm).1 = 0 →
      PmmStep s .alloc ⟨(pmmAllocPage s.pmm).2, s.held⟩
  | free (s : PmmSystem) {page : ℕ} : page ∈ s.held →
      PmmStep s (.free page) ⟨pmmFreePage s.pmm page, s.held.erase page⟩

/-- The bits are those of the words of the bitmap. -/
theorem pmmTestBit_congr_mem {s : PmmState} {m : Memory}
    (agree : ∀ query, s.pmmBitmap ≤ query → query < s.bitsEnd → m query = s.mem query) {f : ℕ}
    (inside : f < 64 * s.words) : pmmTestBit { s with mem := m } f = pmmTestBit s f := by
  apply Bitmap.test_congr
  have upper : s.pmmBitmap + f / 8 < s.bitsEnd := by
    simp only [PmmState.bitsEnd]
    omega
  exact agree _ (Nat.le_add_right _ _) upper

/-- The allocation invariant, relative to the state `init` that `pmm_init` left: the used frames are
those of `init` and the held ones, which are frames that `init` had free. -/
structure PmmOwned (init s : PmmState) (held : Finset ℕ) : Prop where
  wf : PmmWf s
  bitmap : s.pmmBitmap = init.pmmBitmap
  maxBlocks : s.pmmMaxBlocks = init.pmmMaxBlocks
  zero : 0 < s.pmmMaxBlocks → pmmTestBit init 0 = true
  used : ∀ f < s.pmmMaxBlocks,
    pmmTestBit s f = true ↔ pmmTestBit init f = true ∨ pageSize * f ∈ held
  frames : ∀ page ∈ held, ∃ f < s.pmmMaxBlocks, page = pageSize * f ∧ pmmTestBit init f = false

namespace PmmOwned

variable {init s : PmmState} {held : Finset ℕ}

theorem bitsEnd (owned : PmmOwned init s held) : s.bitsEnd = init.bitsEnd := by
  simp only [PmmState.bitsEnd, PmmState.words, owned.bitmap, owned.maxBlocks]

/-- A page that is handed out was free in `init` and is not held; with `NULL` nothing changes. -/
theorem alloc_cases (owned : PmmOwned init s held) :
    (∃ f, f < s.pmmMaxBlocks ∧ (pmmAllocPage s).1 = pageSize * f ∧ f ≠ 0 ∧
        pmmTestBit init f = false ∧ pageSize * f ∉ held ∧
        PmmUpdate s (pmmAllocPage s).2 (fun j b => decide (f = j) || b) ∧ PmmWf (pmmAllocPage s).2) ∨
      pmmAllocPage s = (0, s) := by
  rcases pmmAllocPage_cases owned.wf with ⟨w, f, bound, address, takes, _⟩ | ⟨exhausted, _⟩
  · left
    have unused : ¬(pmmTestBit init f = true ∨ pageSize * f ∈ held) := by
      rw [← owned.used f bound, takes.free]
      decide
    rw [not_or, Bool.not_eq_true] at unused
    refine ⟨f, bound, address, ?_, unused.1, unused.2, takes.update, takes.wf owned.wf bound⟩
    rintro rfl
    rw [owned.zero (by omega)] at unused
    exact absurd unused.1 (by decide)
  · exact Or.inr exhausted

theorem alloc_page (owned : PmmOwned init s held) (found : (pmmAllocPage s).1 ≠ 0) :
    PmmOwned init (pmmAllocPage s).2 (insert (pmmAllocPage s).1 held) := by
  rcases owned.alloc_cases with ⟨f, bound, address, _, free, _, update, wf⟩ | exhausted
  · refine ⟨wf, update.bitmap.trans owned.bitmap, update.maxBlocks.trans owned.maxBlocks, ?_, ?_, ?_⟩
    · rw [update.maxBlocks]
      exact owned.zero
    · intro g small
      rw [update.maxBlocks] at small
      have same : pageSize * g = pageSize * f ↔ f = g := by
        simp only [pageSize]
        omega
      rw [update.bits, Bool.or_eq_true, owned.used g small, decide_eq_true_iff, Finset.mem_insert,
        address, same]
      tauto
    · intro page member
      rw [update.maxBlocks]
      rcases Finset.mem_insert.mp member with rfl | member
      · exact ⟨f, bound, address, free⟩
      · exact owned.frames page member
  · exact absurd (congrArg Prod.fst exhausted) found

theorem alloc_null (owned : PmmOwned init s held) (null : (pmmAllocPage s).1 = 0) :
    PmmOwned init (pmmAllocPage s).2 held := by
  rcases owned.alloc_cases with ⟨f, _, address, nonzero, _⟩ | exhausted
  · rw [address] at null
    simp only [pageSize] at null
    omega
  · rw [exhausted]
    exact owned

/-- While a frame is free, allocation succeeds. -/
theorem alloc_found (owned : PmmOwned init s held) {f : ℕ} (bound : f < s.pmmMaxBlocks)
    (unused : pmmTestBit init f = false) (apart : pageSize * f ∉ held) : (pmmAllocPage s).1 ≠ 0 := by
  rcases pmmAllocPage_cases owned.wf with ⟨w, g, within, address, takes, _⟩ | ⟨_, all⟩
  · rw [address]
    rintro zero
    obtain rfl : g = 0 := by
      simp only [pageSize] at zero
      omega
    have used := (owned.used 0 within).mpr (Or.inl (owned.zero (by omega)))
    rw [takes.free] at used
    cases used
  · rcases (owned.used f bound).mp (all f bound) with used | member
    · rw [unused] at used
      cases used
    · exact absurd member apart

theorem free_page (owned : PmmOwned init s held) {page : ℕ} (member : page ∈ held) :
    PmmOwned init (pmmFreePage s page) (held.erase page) := by
  obtain ⟨f, bound, rfl, unused⟩ := owned.frames page member
  have update := pmmFreePage_update bound
  refine ⟨pmmFreePage_wf owned.wf bound, update.bitmap.trans owned.bitmap,
    update.maxBlocks.trans owned.maxBlocks, ?_, ?_, ?_⟩
  · rw [update.maxBlocks]
    exact owned.zero
  · intro g small
    rw [update.maxBlocks] at small
    rw [update.bits, Bool.and_eq_true, owned.used g small, Bool.not_eq_true', decide_eq_false_iff_not,
      Finset.mem_erase]
    by_cases same : f = g
    · subst same
      simp [unused]
    · have apart : pageSize * g ≠ pageSize * f := by
        simp only [pageSize]
        omega
      simp [same, apart]
  · intro page member
    rw [update.maxBlocks]
    exact owned.frames page (Finset.mem_of_mem_erase member)

/-- The invariant survives writes outside the words of the bitmap. -/
theorem congr_mem (owned : PmmOwned init s held) {m : Memory}
    (agree : ∀ query, s.pmmBitmap ≤ query → query < s.bitsEnd → m query = s.mem query) :
    PmmOwned init { s with mem := m } held := by
  have covers : s.pmmMaxBlocks ≤ 64 * s.words := by simp only [PmmState.words]; omega
  refine ⟨⟨fun j high inside => ?_, owned.wf.hint, owned.wf.maxBlocks⟩, owned.bitmap, owned.maxBlocks,
    owned.zero, fun f bound => ?_, owned.frames⟩
  · rw [pmmTestBit_congr_mem agree inside]
    exact owned.wf.padding j high inside
  · rw [pmmTestBit_congr_mem agree (Nat.lt_of_lt_of_le bound covers)]
    exact owned.used f bound

end PmmOwned

/-- Every call keeps the allocation invariant. -/
theorem PmmStep.owned {init : PmmState} {s t : PmmSystem} {call : PmmCall} (step : PmmStep s call t)
    (owned : PmmOwned init s.pmm s.held) : PmmOwned init t.pmm t.held := by
  cases step with
  | alloc found => exact owned.alloc_page found
  | exhausted null => exact owned.alloc_null null
  | free member => exact owned.free_page member

theorem owned_of_accepts {m : Memory} {mbd : MultibootInfo} {mbdStart kernelEndPhys : ℕ}
    {init : PmmState} (accepts : PmmAccepts { mem := m } mbd mbdStart kernelEndPhys init) :
    PmmOwned init init ∅ :=
  ⟨accepts.wf.1, rfl, rfl, accepts.wf.2, fun f _ => by simp, fun page member => by cases member⟩

/-- After any run the used frames are exactly those `pmm_init` marked and those that are held; the
held addresses are pages of frames that `pmm_init` left free; and the next allocation returns `NULL`
or a page of such a frame that is not held. -/
theorem pmm_used_iff_held {m : Memory} {mbd : MultibootInfo} {mbdStart kernelEndPhys : ℕ}
    {init : PmmState} (accepts : PmmAccepts { mem := m } mbd mbdStart kernelEndPhys init)
    {calls : List PmmCall} {s : PmmSystem} (run : Path PmmStep ⟨init, ∅⟩ calls s) :
    s.pmm.pmmMaxBlocks = init.pmmMaxBlocks ∧
      {f | f < s.pmm.pmmMaxBlocks ∧ pmmTestBit s.pmm f = true} =
        {f | f < init.pmmMaxBlocks ∧ pmmTestBit init f = true} ∪ {f | pageSize * f ∈ s.held} ∧
      (∀ page ∈ s.held, ∃ f < init.pmmMaxBlocks, page = pageSize * f ∧ pmmTestBit init f = false) ∧
      ((pmmAllocPage s.pmm).1 ≠ 0 →
        (pmmAllocPage s.pmm).1 ∉ s.held ∧
          ∃ f < init.pmmMaxBlocks, (pmmAllocPage s.pmm).1 = pageSize * f ∧
            pmmTestBit init f = false) := by
  have owned : PmmOwned init s.pmm s.held :=
    run.invariant (fun s => PmmOwned init s.pmm s.held) (owned_of_accepts accepts)
      fun s call t owned step => step.owned owned
  refine ⟨owned.maxBlocks, ?_, ?_, ?_⟩
  · ext f
    simp only [Set.mem_ofPred_eq, Set.mem_union]
    constructor
    · rintro ⟨bound, set⟩
      exact ((owned.used f bound).mp set).imp (fun set => ⟨owned.maxBlocks ▸ bound, set⟩) id
    · rintro (⟨bound, set⟩ | member)
      · have bound := owned.maxBlocks.symm ▸ bound
        exact ⟨bound, (owned.used f bound).mpr (Or.inl set)⟩
      · obtain ⟨g, bound, same, _⟩ := owned.frames _ member
        obtain rfl : f = g := Nat.eq_of_mul_eq_mul_left (by decide) same
        exact ⟨bound, (owned.used f bound).mpr (Or.inr member)⟩
  · simpa only [owned.maxBlocks] using owned.frames
  · intro found
    rcases owned.alloc_cases with ⟨f, bound, address, _, free, fresh, _⟩ | exhausted
    · exact ⟨address ▸ fresh, f, owned.maxBlocks ▸ bound, address, free⟩
    · exact absurd (congrArg Prod.fst exhausted) found

/-- On the sample machine two pages are allocated, and the first one is freed. -/
theorem pmm_used_iff_held_sample :
    ∃ init first second s, PmmAccepts { mem := sampleMemory } sampleInfo 0x14F000 0x200000 init ∧
      Path PmmStep ⟨init, ∅⟩ [.alloc, .alloc, .free first] s ∧ second ∈ s.held ∧ first ∉ s.held ∧
      {f | f < s.pmm.pmmMaxBlocks ∧ pmmTestBit s.pmm f = true} =
        {f | f < init.pmmMaxBlocks ∧ pmmTestBit init f = true} ∪ {f | pageSize * f ∈ s.held} := by
  obtain ⟨init, accepts⟩ := sampleBoot.accepts
  have blocks := (sampleBoot_geometry accepts).1
  have free (p : ℕ) (behind : 513 ≤ p) (inside : p < 0x8000) := (sampleBoot_free accepts behind inside).2
  have owned := owned_of_accepts accepts
  have found : (pmmAllocPage init).1 ≠ 0 :=
    owned.alloc_found (f := 513) (by omega) (free 513 (by decide) (by decide)) (Finset.notMem_empty _)
  have owned' := owned.alloc_page found
  -- one of two free frames is not the one that is held
  have other : ∃ f, 513 ≤ f ∧ f < 0x8000 ∧ pageSize * f ∉ (insert (pmmAllocPage init).1 ∅ : Finset ℕ) := by
    rcases eq_or_ne (pageSize * 513) (pmmAllocPage init).1 with same | apart
    · refine ⟨514, by decide, by decide, fun member => ?_⟩
      have page := Finset.mem_singleton.mp member
      rw [← same] at page
      exact absurd page (by decide)
    · exact ⟨513, by decide, by decide, fun member => apart (Finset.mem_singleton.mp member)⟩
  obtain ⟨f, behind, inside, unheld⟩ := other
  have found' := owned'.alloc_found (by rw [owned'.maxBlocks, blocks]; exact inside) (free f behind inside) unheld
  have fresh : (pmmAllocPage (pmmAllocPage init).2).1 ∉ (insert (pmmAllocPage init).1 ∅ : Finset ℕ) := by
    rcases owned'.alloc_cases with ⟨g, _, address, _, _, fresh, _⟩ | exhausted
    · rw [address]
      exact fresh
    · exact absurd (congrArg Prod.fst exhausted) found'
  have run : Path PmmStep ⟨init, ∅⟩ [.alloc, .alloc, .free (pmmAllocPage init).1] _ :=
    .cons (.alloc _ found) (.cons (.alloc _ found') (.cons (.free _
      (Finset.mem_insert_of_mem (Finset.mem_insert_self _ _))) (.nil _)))
  refine ⟨init, _, (pmmAllocPage (pmmAllocPage init).2).1, _, accepts, run, ?_, Finset.notMem_erase _ _,
    (pmm_used_iff_held accepts run).2.1⟩
  refine Finset.mem_erase.mpr ⟨fun same => fresh ?_, Finset.mem_insert_self _ _⟩
  rw [same]
  exact Finset.mem_insert_self _ _

end RaryOS.Soundness
