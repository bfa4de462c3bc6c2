import RaryOS.Proofs.PmmBits

/-! # Allocating and freeing one page

The search stops at the first word that is not full, counting from the hint and then from word 0.
With the padding bits of the last word set, the bit it takes belongs to a frame below
`pmm_max_blocks`; with the hint inside the bitmap, the two passes together see every word, so `NULL`
means that no frame is free.
-/

namespace RaryOS.Model

open RaryOS.Core

/-- What allocation relies on: the bits past the last frame are set, the hint stays inside the
searched words, and every page address fits in 64 bits. -/
structure PmmWf (s : PmmState) : Prop where
  padding : ∀ j, s.pmmMaxBlocks ≤ j → j < 64 * s.words → pmmTestBit s j = true
  hint : s.pmmHintWord ≤ s.words
  maxBlocks : s.pmmMaxBlocks ≤ 2 ^ 52

/-- An update of frames below `pmm_max_blocks` that does not move the hint up. -/
theorem PmmWf.of_update {s t : PmmState} {f : ℕ → Bool → Bool} (wf : PmmWf s) (update : PmmUpdate s t f)
    (above : ∀ j b, s.pmmMaxBlocks ≤ j → f j b = b) (hint : t.pmmHintWord ≤ s.pmmHintWord) : PmmWf t where
  padding j high inside := by
    rw [update.maxBlocks] at high
    rw [update.words] at inside
    rw [update.bits, above j _ high, wf.padding j high inside]
  hint := by
    rw [update.words]
    exact hint.trans wf.hint
  maxBlocks := update.maxBlocks ▸ wf.maxBlocks

/-- `t` is `s` after taking the free frame `f` from the first word at or after `w` with one. -/
structure TakesFrame (s t : PmmState) (w f : ℕ) : Prop where
  free : pmmTestBit s f = false
  update : PmmUpdate s t (fun j b => decide (f = j) || b)
  hint : t.pmmHintWord = f / 64
  lowest : ∀ g, 64 * w ≤ g → g < f → pmmTestBit s g = true

private theorem full_word {s : PmmState} {w : ℕ} (full : Bitmap.word s.mem s.pmmBitmap w = 2 ^ 64 - 1)
    {g : ℕ} (low : 64 * w ≤ g) (high : g < 64 * (w + 1)) : pmmTestBit s g = true := by
  have bit := (Bitmap.word_eq_full_iff s.mem s.pmmBitmap w).mp full (g - 64 * w) (by omega)
  rwa [show 64 * w + (g - 64 * w) = g by omega] at bit

/-- Taking the lowest clear bit of a word that is not full. -/
private theorem takes_lowest {s : PmmState} {w : ℕ}
    (notFull : Bitmap.word s.mem s.pmmBitmap w ≠ 2 ^ 64 - 1) :
    let bit := ctz64 (2 ^ 64 - 1 - Bitmap.word s.mem s.pmmBitmap w)
    bit < 64 ∧ pmmTestBit s (64 * w + bit) = false ∧
      ∀ g, 64 * w ≤ g → g < 64 * w + bit → pmmTestBit s g = true := by
  intro bit
  have clear : ∃ j < 64, (2 ^ 64 - 1 - Bitmap.word s.mem s.pmmBitmap w).testBit j := by
    by_contra none
    refine notFull ((Bitmap.word_eq_full_iff s.mem s.pmmBitmap w).mpr fun j bound => ?_)
    by_contra unset
    refine none ⟨j, bound, ?_⟩
    rw [Bitmap.not_word_testBit s.mem s.pmmBitmap w bound, Bool.not_eq_true', Bool.eq_false_iff]
    exact unset
  obtain ⟨bound, set, before⟩ := ctz64_spec clear
  refine ⟨bound, ?_, fun g low high => ?_⟩
  · rw [Bitmap.not_word_testBit s.mem s.pmmBitmap w bound, Bool.not_eq_true'] at set
    exact set
  · have lower := before (g - 64 * w) (by omega)
    rw [Bitmap.not_word_testBit s.mem s.pmmBitmap w (by omega), Bool.not_eq_false',
      show 64 * w + (g - 64 * w) = g by omega] at lower
    exact lower

theorem pmmAllocScan_none {s : PmmState} {count w : ℕ} (none : pmmAllocScan s count w = none) :
    ∀ g, 64 * w ≤ g → g < 64 * (w + count) → pmmTestBit s g = true := by
  induction count generalizing w with
  | zero => intro g low high; omega
  | succ count ih =>
    intro g low high
    simp only [pmmAllocScan] at none
    split_ifs at none with full
    by_cases here : g < 64 * (w + 1)
    · exact full_word full low here
    · exact ih none g (by omega) (by omega)

theorem pmmAllocScan_some {s t : PmmState} {count w page : ℕ} (wf : PmmWf s)
    (found : pmmAllocScan s count w = some (page, t)) (inside : w + count ≤ s.words) :
    ∃ f, f < s.pmmMaxBlocks ∧ page = pageSize * f ∧ TakesFrame s t w f := by
  induction count generalizing w with
  | zero => simp only [pmmAllocScan, reduceCtorEq] at found
  | succ count ih =>
    simp only [pmmAllocScan] at found
    split_ifs at found with full
    · obtain ⟨f, bound, address, takes⟩ := ih found (by omega)
      refine ⟨f, bound, address, { takes with lowest := fun g low high => ?_ }⟩
      by_cases here : g < 64 * (w + 1)
      · exact full_word full low here
      · exact takes.lowest g (by omega) high
    · obtain ⟨bound, free, lowest⟩ := takes_lowest full
      generalize ctz64 (2 ^ 64 - 1 - Bitmap.word s.mem s.pmmBitmap w) = bit at found bound free lowest
      obtain ⟨rfl, rfl⟩ := Prod.mk.inj (Option.some.inj found)
      have below : 64 * w + bit < s.pmmMaxBlocks := by
        by_contra high
        have padded := wf.padding (64 * w + bit) (by omega) (by omega)
        exact Bool.false_ne_true (free.symm.trans padded)
      have small := wf.maxBlocks
      refine ⟨64 * w + bit, below, ?_, free, ⟨rfl, rfl, rfl, fun j => ?_, fun query away => ?_⟩, ?_, lowest⟩
      · simp only [pageSize]
        omega
      · exact Bitmap.test_orWord_two_pow s.mem s.pmmBitmap w j bound
      · apply Bitmap.orWord_apply_of_outside s.mem s.pmmBitmap w (2 ^ bit)
        simp only [PmmState.bitsEnd] at away
        omega
      · simp only
        omega

/-- A taken frame leaves the allocator well formed. -/
theorem TakesFrame.wf {s t : PmmState} {w f : ℕ} (takes : TakesFrame s t w f) (wf : PmmWf s)
    (bound : f < s.pmmMaxBlocks) : PmmWf t where
  padding j high inside := by
    rw [takes.update.maxBlocks] at high
    rw [takes.update.words] at inside
    rw [takes.update.bits, wf.padding j high inside, Bool.or_true]
  hint := by
    rw [takes.hint, takes.update.words, PmmState.words]
    omega
  maxBlocks := takes.update.maxBlocks ▸ wf.maxBlocks

/-- Either the page of a free frame is taken, the lowest one from the hint on when there is one
there, or `NULL` is returned, nothing changes and every frame is used. -/
theorem pmmAllocPage_cases {s : PmmState} (wf : PmmWf s) :
    (∃ w f, f < s.pmmMaxBlocks ∧ (pmmAllocPage s).1 = pageSize * f ∧
        TakesFrame s (pmmAllocPage s).2 w f ∧ (w = s.pmmHintWord ∨
          w = 0 ∧ ∀ g, 64 * s.pmmHintWord ≤ g → g < s.pmmMaxBlocks → pmmTestBit s g = true)) ∨
      (pmmAllocPage s = (0, s) ∧ ∀ f < s.pmmMaxBlocks, pmmTestBit s f = true) := by
  have covers : s.pmmMaxBlocks ≤ 64 * s.words := by simp only [PmmState.words]; omega
  have hint := wf.hint
  have result : pmmAllocPage s =
      if s.pmmMaxBlocks = 0 then (0, s)
      else (pmmAllocScan s (s.words - s.pmmHintWord) s.pmmHintWord).getD
        ((pmmAllocScan s s.pmmHintWord 0).getD (0, s)) := by
    simp only [pmmAllocPage, PmmState.words]
    cases pmmAllocScan s ((s.pmmMaxBlocks + 63) / 64 - s.pmmHintWord) s.pmmHintWord <;>
      cases pmmAllocScan s s.pmmHintWord 0 <;> rfl
  by_cases empty : s.pmmMaxBlocks = 0
  · right
    rw [result, if_pos empty]
    exact ⟨rfl, fun f bound => by omega⟩
  rw [result, if_neg empty]
  cases first : pmmAllocScan s (s.words - s.pmmHintWord) s.pmmHintWord with
  | some found =>
    left
    obtain ⟨f, bound, address, takes⟩ := pmmAllocScan_some wf first (by omega)
    exact ⟨_, f, bound, address, takes, Or.inl rfl⟩
  | none =>
    have above := pmmAllocScan_none first
    cases second : pmmAllocScan s s.pmmHintWord 0 with
    | some found =>
      left
      obtain ⟨f, bound, address, takes⟩ := pmmAllocScan_some wf second (by omega)
      exact ⟨0, f, bound, address, takes, Or.inr ⟨rfl, fun g low high => above g low (by omega)⟩⟩
    | none =>
      right
      have below := pmmAllocScan_none second
      refine ⟨rfl, fun f bound => ?_⟩
      by_cases low : f < 64 * s.pmmHintWord
      · exact below f (by omega) (by omega)
      · exact above f (by omega) (by omega)

theorem pmmAllocPage_wf {s : PmmState} (wf : PmmWf s) : PmmWf (pmmAllocPage s).2 := by
  rcases pmmAllocPage_cases wf with ⟨w, f, bound, _, takes, _⟩ | ⟨exhausted, _⟩
  · exact takes.wf wf bound
  · rw [exhausted]
    exact wf

/-- Freeing the page of a frame below `pmm_max_blocks` clears exactly its bit. -/
theorem pmmFreePage_update {s : PmmState} {f : ℕ} (bound : f < s.pmmMaxBlocks) :
    PmmUpdate s (pmmFreePage s (pageSize * f)) (fun j b => !decide (f = j) && b) := by
  have frame : pageSize * f / pageSize = f := Nat.mul_div_cancel_left f (by decide)
  have clear := pmmClearBit_update s bound
  simp only [pmmFreePage, frame, if_pos bound]
  split
  · exact ⟨clear.bitmap, clear.maxBlocks, clear.bitmapSize, clear.bits, clear.outside⟩
  · exact clear

theorem pmmFreePage_hint_le (s : PmmState) (pagePhys : ℕ) :
    (pmmFreePage s pagePhys).pmmHintWord ≤ s.pmmHintWord := by
  simp only [pmmFreePage]
  split_ifs with bound lower
  · exact lower.le
  · exact le_rfl
  · exact le_rfl

theorem pmmFreePage_wf {s : PmmState} {f : ℕ} (wf : PmmWf s) (bound : f < s.pmmMaxBlocks) :
    PmmWf (pmmFreePage s (pageSize * f)) := by
  refine wf.of_update (pmmFreePage_update bound) (fun j b above => ?_) (pmmFreePage_hint_le s _)
  rw [decide_eq_false (by omega), Bool.not_false, Bool.true_and]

/-- Freeing depends on the frame of the address only, and does nothing for a frame without a bit. -/
theorem pmmFreePage_cases (s : PmmState) (pagePhys : ℕ) :
    (∃ f < s.pmmMaxBlocks, pmmFreePage s pagePhys = pmmFreePage s (pageSize * f)) ∨
      pmmFreePage s pagePhys = s := by
  by_cases bound : pagePhys / pageSize < s.pmmMaxBlocks
  · refine Or.inl ⟨pagePhys / pageSize, bound, ?_⟩
    have frame : pageSize * (pagePhys / pageSize) / pageSize = pagePhys / pageSize :=
      Nat.mul_div_cancel_left _ (by decide)
    simp only [pmmFreePage, frame]
  · exact Or.inr (by simp only [pmmFreePage, if_neg bound])

/-! ## The region functions -/

theorem pmmRegionLoop_hint (op : PmmState → ℕ → PmmState)
    (keeps : ∀ s bit, (op s bit).pmmHintWord = s.pmmHintWord) (count bit : ℕ) (s : PmmState) :
    (pmmRegionLoop op count bit s).pmmHintWord = s.pmmHintWord := by
  induction count generalizing bit s with
  | zero => rfl
  | succ count ih =>
    rw [pmmRegionLoop]
    split
    · rfl
    · rw [ih, keeps]

theorem pmmInitRegion_wf {s : PmmState} (wf : PmmWf s) (base size : ℕ) : PmmWf (pmmInitRegion s base size) := by
  refine wf.of_update (pmmInitRegion_update s base size) (fun j b above => if_neg ?_) ?_
  · exact fun inside => absurd inside.2 (Nat.not_lt.mpr above)
  · simp only [pmmInitRegion]
    split
    · exact le_rfl
    · exact (pmmRegionLoop_hint pmmClearBit (fun _ _ => rfl) _ _ _).le

theorem pmmDeinitRegion_wf {s : PmmState} (wf : PmmWf s) (base size : ℕ) :
    PmmWf (pmmDeinitRegion s base size) := by
  refine wf.of_update (pmmDeinitRegion_update s base size) (fun j b above => if_neg ?_) ?_
  · exact fun inside => absurd inside.2 (Nat.not_lt.mpr above)
  · simp only [pmmDeinitRegion]
    split
    · exact le_rfl
    · exact (pmmRegionLoop_hint pmmSetBit (fun _ _ => rfl) _ _ _).le

/-! ## The lowest free frame -/

/-- Every frame below the word of the hint is used. -/
def HintBelow (s : PmmState) : Prop :=
  ∀ g < 64 * s.pmmHintWord, g < s.pmmMaxBlocks → pmmTestBit s g = true

theorem TakesFrame.hintBelow {s t : PmmState} {w f : ℕ} (takes : TakesFrame s t w f)
    (used : ∀ g < f, pmmTestBit s g = true) : HintBelow t := by
  intro g below _
  rw [takes.hint] at below
  rw [takes.update.bits, used g (by omega), Bool.or_true]

theorem pmmFreePage_hintBelow {s : PmmState} {f : ℕ} (below : HintBelow s) (bound : f < s.pmmMaxBlocks) :
    HintBelow (pmmFreePage s (pageSize * f)) := by
  have update := pmmFreePage_update bound
  have lower : (pmmFreePage s (pageSize * f)).pmmHintWord ≤ f / 64 := by
    have frame : pageSize * f / pageSize = f := Nat.mul_div_cancel_left f (by decide)
    simp only [pmmFreePage, frame, if_pos bound]
    split
    · exact le_rfl
    · next notLower => exact Nat.le_of_not_lt notLower
  have kept := pmmFreePage_hint_le s (pageSize * f)
  intro g inside small
  rw [update.maxBlocks] at small
  rw [update.bits, below g (by omega) small, Bool.and_true, Bool.not_eq_true', decide_eq_false_iff_not]
  omega

/-- With the hint below every free frame, the lowest free frame is taken, if there is one. -/
theorem pmmAllocPage_lowest {s : PmmState} (wf : PmmWf s) (below : HintBelow s) :
    (∃ w f, f < s.pmmMaxBlocks ∧ (pmmAllocPage s).1 = pageSize * f ∧
        TakesFrame s (pmmAllocPage s).2 w f ∧ ∀ g < f, pmmTestBit s g = true) ∨
      (pmmAllocPage s = (0, s) ∧ ∀ f < s.pmmMaxBlocks, pmmTestBit s f = true) := by
  apply (pmmAllocPage_cases wf).imp_left
  rintro ⟨w, f, bound, address, takes, start⟩
  refine ⟨w, f, bound, address, takes, fun g less => ?_⟩
  rcases Nat.lt_or_ge g (64 * w) with skipped | searched
  · rcases start with rfl | ⟨rfl, _⟩
    · exact below g skipped (by omega)
    · omega
  · exact takes.lowest g searched less

end RaryOS.Model
