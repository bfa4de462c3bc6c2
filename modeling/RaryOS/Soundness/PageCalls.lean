import RaryOS.Soundness.PmmRun
import RaryOS.Soundness.ReservedMemory

/-! # The page allocator under any calls

The callers of `pmm.c` are not trusted here: pages may be freed twice, or without having been handed out,
and regions may be freed and reserved while the allocator is in use. Allocation still takes one free frame
whenever there is one. As long as no region is freed, it takes the lowest.
-/

namespace RaryOS.Soundness

open RaryOS.Core RaryOS.Model

/-! ## Calls -/

/-- A call of one of the page functions, with any argument. -/
def pmmCall (s : PmmState) : PmmCall → PmmState
  | .alloc => (pmmAllocPage s).2
  | .free pagePhys => pmmFreePage s pagePhys

/-- A call of any function of the allocator after `pmm_init`. -/
inductive PmmRequest where
  | page (call : PmmCall)
  | initRegion (base size : ℕ)
  | deinitRegion (base size : ℕ)
deriving DecidableEq, Repr

def pmmRequest (s : PmmState) : PmmRequest → PmmState
  | .page call => pmmCall s call
  | .initRegion base size => pmmInitRegion s base size
  | .deinitRegion base size => pmmDeinitRegion s base size

/-! ## What the calls keep -/

theorem pmmCall_wf {s : PmmState} (wf : PmmWf s) (call : PmmCall) : PmmWf (pmmCall s call) := by
  cases call with
  | alloc => exact pmmAllocPage_wf wf
  | free pagePhys =>
    rw [pmmCall]
    rcases pmmFreePage_cases s pagePhys with ⟨f, bound, frame⟩ | nothing
    · rw [frame]
      exact pmmFreePage_wf wf bound
    · rw [nothing]
      exact wf

/-- Every request keeps the padding set and the hint inside the bitmap. -/
theorem pmmRequest_wf {s : PmmState} (wf : PmmWf s) (request : PmmRequest) : PmmWf (pmmRequest s request) := by
  cases request with
  | page call => exact pmmCall_wf wf call
  | initRegion base size => exact pmmInitRegion_wf wf base size
  | deinitRegion base size => exact pmmDeinitRegion_wf wf base size

/-- What the page functions keep: no frame is free below the hint. -/
structure LowestNext (s : PmmState) : Prop where
  wf : PmmWf s
  hint : HintBelow s

theorem pmmCall_lowestNext {s : PmmState} (lowest : LowestNext s) (call : PmmCall) :
    LowestNext (pmmCall s call) := by
  refine ⟨pmmCall_wf lowest.wf call, ?_⟩
  cases call with
  | alloc =>
    rw [pmmCall]
    rcases pmmAllocPage_lowest lowest.wf lowest.hint with ⟨w, f, _, _, takes, used⟩ | ⟨exhausted, _⟩
    · exact takes.hintBelow used
    · rw [exhausted]
      exact lowest.hint
  | free pagePhys =>
    rw [pmmCall]
    rcases pmmFreePage_cases s pagePhys with ⟨f, bound, frame⟩ | nothing
    · rw [frame]
      exact pmmFreePage_hintBelow lowest.hint bound
    · rw [nothing]
      exact lowest.hint

/-- A word below the hint is full, with its padding. -/
theorem LowestNext.word_full {s : PmmState} (lowest : LowestNext s) {w : ℕ} (below : w < s.pmmHintWord) :
    Bitmap.word s.mem s.pmmBitmap w = 2 ^ 64 - 1 := by
  apply (Bitmap.word_eq_full_iff s.mem s.pmmBitmap w).mpr
  intro j inside
  have hint := lowest.wf.hint
  by_cases bound : 64 * w + j < s.pmmMaxBlocks
  · exact lowest.hint (64 * w + j) (by omega) bound
  · exact lowest.wf.padding (64 * w + j) (by omega) (by omega)

section Runs

variable {m : Memory} {mbd : MultibootInfo} {mbdStart kernelEndPhys : ℕ} {init : PmmState}

theorem wf_of_requests (accepts : PmmAccepts { mem := m } mbd mbdStart kernelEndPhys init)
    (requests : List PmmRequest) : PmmWf (requests.foldl pmmRequest init) :=
  List.foldlRecOn requests pmmRequest accepts.wf.1 fun _ wf request _ => pmmRequest_wf wf request

theorem lowestNext_of_calls (accepts : PmmAccepts { mem := m } mbd mbdStart kernelEndPhys init)
    (calls : List PmmCall) : LowestNext (calls.foldl pmmCall init) := by
  refine List.foldlRecOn calls pmmCall ⟨accepts.wf.1, fun g below _ => ?_⟩
    fun _ lowest call _ => pmmCall_lowestNext lowest call
  rw [accepts.hint] at below
  exact absurd below (Nat.not_lt_zero g)

/-- After any calls of any functions of the allocator: if some frame is free, allocation takes one, changes
no other bit and returns its page; if none is free, it returns `NULL` and changes nothing. -/
theorem alloc_takes_one (accepts : PmmAccepts { mem := m } mbd mbdStart kernelEndPhys init)
    (requests : List PmmRequest) :
    let s := requests.foldl pmmRequest init
    ((∃ f < s.pmmMaxBlocks, pmmTestBit s f = false) →
        ∃ f < s.pmmMaxBlocks, pmmTestBit s f = false ∧ (pmmAllocPage s).1 = 4096 * f ∧
          pmmTestBit (pmmAllocPage s).2 f = true ∧
          ∀ j, j ≠ f → pmmTestBit (pmmAllocPage s).2 j = pmmTestBit s j) ∧
      ((∀ f < s.pmmMaxBlocks, pmmTestBit s f = true) →
        (pmmAllocPage s).1 = 0 ∧ ∀ j, pmmTestBit (pmmAllocPage s).2 j = pmmTestBit s j) := by
  intro s
  have wf : PmmWf s := wf_of_requests accepts requests
  rcases pmmAllocPage_cases wf with ⟨w, f, bound, address, takes, _⟩ | ⟨exhausted, used⟩
  · refine ⟨fun _ => ⟨f, bound, takes.free, address, ?_, fun j other => ?_⟩, fun used => ?_⟩
    · rw [takes.update.bits, decide_eq_true rfl, Bool.true_or]
    · rw [takes.update.bits, decide_eq_false other.symm, Bool.false_or]
    · have free := takes.free
      rw [used f bound] at free
      cases free
  · refine ⟨fun ⟨f, bound, free⟩ => ?_, fun _ => ?_⟩
    · rw [used f bound] at free
      cases free
    · rw [exhausted]
      exact ⟨rfl, fun _ => rfl⟩

/-- After any calls of the page functions every word below the hint is full, and if some frame is free, the
lowest one is allocated. -/
theorem alloc_takes_lowest (accepts : PmmAccepts { mem := m } mbd mbdStart kernelEndPhys init)
    (calls : List PmmCall) :
    let s := calls.foldl pmmCall init
    (∀ w < s.pmmHintWord, Bitmap.word s.mem s.pmmBitmap w = 2 ^ 64 - 1) ∧
      ((∃ f < s.pmmMaxBlocks, pmmTestBit s f = false) →
        ∃ f < s.pmmMaxBlocks, pmmTestBit s f = false ∧ (∀ g < f, pmmTestBit s g = true) ∧
          (pmmAllocPage s).1 = pageSize * f ∧ pmmTestBit (pmmAllocPage s).2 f = true) := by
  intro s
  have lowest : LowestNext s := lowestNext_of_calls accepts calls
  refine ⟨fun w below => lowest.word_full below, fun ⟨g, bound, free⟩ => ?_⟩
  rcases pmmAllocPage_lowest lowest.wf lowest.hint with ⟨w, f, bound, address, takes, used⟩ | ⟨_, exhausted⟩
  · refine ⟨f, bound, takes.free, used, address, ?_⟩
    rw [takes.update.bits, decide_eq_true rfl, Bool.true_or]
  · rw [exhausted g bound] at free
    cases free

/-- After any calls of the page functions: freeing the page just allocated leaves every bit as it was
exactly when there was a free frame, or the bitmap has none at all. -/
theorem free_alloc_restores_iff (accepts : PmmAccepts { mem := m } mbd mbdStart kernelEndPhys init)
    (calls : List PmmCall) :
    let s := calls.foldl pmmCall init
    (∀ j, pmmTestBit (pmmFreePage (pmmAllocPage s).2 (pmmAllocPage s).1) j = pmmTestBit s j) ↔
      s.pmmMaxBlocks = 0 ∨ ∃ f < s.pmmMaxBlocks, pmmTestBit s f = false := by
  intro s
  have lowest : LowestNext s := lowestNext_of_calls accepts calls
  rcases pmmAllocPage_cases lowest.wf with ⟨w, f, bound, address, takes, _⟩ | ⟨exhausted, used⟩
  · refine iff_of_true (fun j => ?_) (Or.inr ⟨f, bound, takes.free⟩)
    have back := pmmFreePage_update (takes.update.maxBlocks.symm ▸ bound)
    rw [address, back.bits, takes.update.bits]
    by_cases same : f = j
    · subst same
      rw [takes.free, decide_eq_true rfl, Bool.not_true, Bool.false_and]
    · rw [decide_eq_false same, Bool.not_false, Bool.true_and, Bool.false_or]
  · rw [exhausted]
    constructor
    · intro restores
      rw [or_iff_not_imp_left]
      intro blocks
      -- `NULL` is the address of frame 0
      have cleared := (pmmFreePage_update (Nat.pos_of_ne_zero blocks)).bits 0
      rw [Nat.mul_zero, decide_eq_true rfl, Bool.not_true, Bool.false_and] at cleared
      exact ⟨0, Nat.pos_of_ne_zero blocks, (restores 0).symm.trans cleared⟩
    · rintro (blocks | ⟨f, bound, free⟩)
      · intro j
        simp only [pmmFreePage, blocks, Nat.not_lt_zero, if_false]
      · rw [used f bound] at free
        cases free

end Runs

/-! ## The sample machine, and one whose memory is all reserved -/

/-- After `pmm_init`, a region that is freed and an allocation a frame is still free, so one is taken. -/
theorem alloc_takes_one_sample :
    ∃ init, PmmAccepts { mem := sampleMemory } sampleInfo 0x14F000 0x200000 init ∧
      let s := [PmmRequest.initRegion 0 0x2000, .page .alloc].foldl pmmRequest init
      ∃ f < s.pmmMaxBlocks, pmmTestBit s f = false ∧ (pmmAllocPage s).1 = 4096 * f ∧
        pmmTestBit (pmmAllocPage s).2 f = true ∧ ∀ j, j ≠ f → pmmTestBit (pmmAllocPage s).2 j = pmmTestBit s j := by
  obtain ⟨init, accepts⟩ := sampleBoot.accepts
  refine ⟨init, accepts, (alloc_takes_one accepts [.initRegion 0 0x2000, .page .alloc]).1 ?_⟩
  change ∃ f < (pmmAllocPage (pmmInitRegion init 0 0x2000)).2.pmmMaxBlocks,
    pmmTestBit (pmmAllocPage (pmmInitRegion init 0 0x2000)).2 f = false
  have region := pmmInitRegion_update init 0 0x2000
  have blocks := region.maxBlocks.trans (sampleBoot_geometry accepts).1
  have free (p : ℕ) (behind : 513 ≤ p) (inside : p < 0x8000) : pmmTestBit (pmmInitRegion init 0 0x2000) p = false := by
    rw [region.bits, (sampleBoot_free accepts behind inside).2, ite_self]
  rcases pmmAllocPage_cases (pmmInitRegion_wf accepts.wf.1 0 0x2000) with ⟨w, f, _, _, takes, _⟩ | ⟨exhausted, _⟩
  · rw [takes.update.maxBlocks, blocks]
    rcases eq_or_ne f 513 with rfl | other
    · refine ⟨514, by decide, ?_⟩
      rw [takes.update.bits, free 514 (by decide) (by decide)]
      rfl
    · refine ⟨513, by decide, ?_⟩
      rw [takes.update.bits, free 513 (by decide) (by decide), decide_eq_false other]
      rfl
  · rw [exhausted, blocks]
    exact ⟨513, by decide, free 513 (by decide) (by decide)⟩

theorem alloc_takes_lowest_sample :
    ∃ init, PmmAccepts { mem := sampleMemory } sampleInfo 0x14F000 0x200000 init ∧
      let s := [PmmCall.alloc, .free 0].foldl pmmCall init
      ∀ w < s.pmmHintWord, Bitmap.word s.mem s.pmmBitmap w = 2 ^ 64 - 1 := by
  obtain ⟨init, accepts⟩ := sampleBoot.accepts
  exact ⟨init, accepts, (alloc_takes_lowest accepts [.alloc, .free 0]).1⟩

theorem free_alloc_restores_iff_sample :
    ∃ init, PmmAccepts { mem := sampleMemory } sampleInfo 0x14F000 0x200000 init ∧
      ∀ j, pmmTestBit (pmmFreePage (pmmAllocPage init).2 (pmmAllocPage init).1) j = pmmTestBit init j := by
  obtain ⟨init, accepts⟩ := sampleBoot.accepts
  have blocks := (sampleBoot_geometry accepts).1
  have free := sampleBoot_free accepts (p := 0x4000) (by decide) (by decide)
  refine ⟨init, accepts, (free_alloc_restores_iff accepts []).mpr (Or.inr ⟨0x4000, ?_, free.2⟩)⟩
  rw [List.foldl_nil, blocks]
  decide

/-- With 639 KiB of low memory only, `pmm_init` reserves every frame. Freeing the `NULL` that allocation then
returns makes frame 0 free. -/
theorem free_alloc_restores_fails :
    ∃ init, PmmAccepts { mem := twoEntries lowMemory besideMemory } sampleInfo 0x14F000 0x200000 init ∧
      pmmTestBit init 0 = true ∧ (pmmAllocPage init).1 = 0 ∧
      pmmTestBit (pmmFreePage (pmmAllocPage init).2 (pmmAllocPage init).1) 0 = false := by
  have map : MapEntries (twoEntries lowMemory besideMemory) 0x150030 0x150000 [lowMemory, besideMemory] :=
    twoEntries_map (by decide) (by decide)
  have boot := pmmBoot_of_map map (by decide)
  obtain ⟨init, accepts⟩ := boot.accepts
  obtain ⟨_, initialized⟩ := accepts.initialized boot.hasMap map boot.mapApart
  have blocks : init.pmmMaxBlocks = 0x9F := initialized.maxBlocks.trans (by decide)
  have size : init.pmmBitmapSize = 4096 := initialized.bitmapSize.trans (by decide)
  have used : ∀ f < init.pmmMaxBlocks, pmmTestBit init f = true := by
    intro f bound
    rw [← Bool.not_eq_false]
    intro clear
    -- every frame of the bitmap lies below 1 MiB
    have free := (boot.free_iff accepts f).mp ⟨by omega, clear⟩
    refine free.2.2.1 ((pageMeets_iff f 0 0x100000).mpr ?_)
    simp only [pageSize]
    omega
  have exhausted : pmmAllocPage init = (0, init) := by
    rcases pmmAllocPage_cases accepts.wf.1 with ⟨_, f, bound, _, takes, _⟩ | ⟨exhausted, _⟩
    · have free := takes.free
      rw [used f bound] at free
      cases free
    · exact exhausted
  have first : 0 < init.pmmMaxBlocks := by omega
  refine ⟨init, accepts, used 0 first, congrArg Prod.fst exhausted, ?_⟩
  rw [exhausted]
  exact (pmmFreePage_update first).bits 0

end RaryOS.Soundness
