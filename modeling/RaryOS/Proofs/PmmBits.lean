import RaryOS.Model.Pmm

/-! # What the allocator's operations do to the bitmap

`PmmUpdate s t f` says that `t` is `s` with every bit `j` replaced by `f j` of it: the bitmap stays
where it was, and no byte outside the words of frames below `pmm_max_blocks` changes. Each operation
has one such description, and they compose.
-/

namespace RaryOS.Model

open RaryOS.Core

/-- The number of words `pmm_alloc_page` searches. -/
def PmmState.words (s : PmmState) : ℕ := (s.pmmMaxBlocks + 63) / 64

/-- One past the last byte of the words `pmm_alloc_page` searches. -/
def PmmState.bitsEnd (s : PmmState) : ℕ := s.pmmBitmap + 8 * s.words

/-- `t` is `s` with bit `j` of the bitmap replaced by `f j` of its value. -/
structure PmmUpdate (s t : PmmState) (f : ℕ → Bool → Bool) : Prop where
  bitmap : t.pmmBitmap = s.pmmBitmap
  maxBlocks : t.pmmMaxBlocks = s.pmmMaxBlocks
  bitmapSize : t.pmmBitmapSize = s.pmmBitmapSize
  bits : ∀ j, pmmTestBit t j = f j (pmmTestBit s j)
  outside : ∀ query, query < s.pmmBitmap ∨ s.bitsEnd ≤ query → t.mem query = s.mem query

namespace PmmUpdate

theorem refl (s : PmmState) : PmmUpdate s s (fun _ b => b) :=
  ⟨rfl, rfl, rfl, fun _ => rfl, fun _ _ => rfl⟩

theorem congr {s t : PmmState} {f g : ℕ → Bool → Bool} (update : PmmUpdate s t f)
    (same : ∀ j b, f j b = g j b) : PmmUpdate s t g :=
  { update with bits := fun j => by rw [update.bits, same] }

theorem words {s t : PmmState} {f : ℕ → Bool → Bool} (update : PmmUpdate s t f) :
    t.words = s.words := by
  simp only [PmmState.words, update.maxBlocks]

theorem bitsEnd {s t : PmmState} {f : ℕ → Bool → Bool} (update : PmmUpdate s t f) :
    t.bitsEnd = s.bitsEnd := by
  simp only [PmmState.bitsEnd, update.bitmap, update.words]

theorem trans {s t u : PmmState} {f g : ℕ → Bool → Bool} (first : PmmUpdate s t f)
    (second : PmmUpdate t u g) : PmmUpdate s u (fun j b => g j (f j b)) where
  bitmap := second.bitmap.trans first.bitmap
  maxBlocks := second.maxBlocks.trans first.maxBlocks
  bitmapSize := second.bitmapSize.trans first.bitmapSize
  bits j := by rw [second.bits, first.bits]
  outside query away := by
    rw [second.outside query, first.outside query away]
    simpa only [first.bitsEnd, first.bitmap] using away

end PmmUpdate

theorem pmmSetBit_update (s : PmmState) {bit : ℕ} (bound : bit < s.pmmMaxBlocks) :
    PmmUpdate s (pmmSetBit s bit) (fun j b => decide (bit = j) || b) where
  bitmap := rfl
  maxBlocks := rfl
  bitmapSize := rfl
  bits j := Bitmap.test_set s.mem s.pmmBitmap bit j
  outside query away := by
    apply Bitmap.set_apply_of_ne s.mem s.pmmBitmap bit
    simp only [PmmState.bitsEnd, PmmState.words] at away
    omega

theorem pmmClearBit_update (s : PmmState) {bit : ℕ} (bound : bit < s.pmmMaxBlocks) :
    PmmUpdate s (pmmClearBit s bit) (fun j b => !decide (bit = j) && b) where
  bitmap := rfl
  maxBlocks := rfl
  bitmapSize := rfl
  bits j := Bitmap.test_clear s.mem s.pmmBitmap bit j
  outside query away := by
    apply Bitmap.clear_apply_of_ne s.mem s.pmmBitmap bit
    simp only [PmmState.bitsEnd, PmmState.words] at away
    omega

/-- The region loop writes one value to every bit of a range, up to `pmm_max_blocks`. -/
private theorem pmmRegionLoop_update (op : PmmState → ℕ → PmmState) (value : Bool)
    (step : ∀ s bit, bit < s.pmmMaxBlocks →
      PmmUpdate s (op s bit) (fun j b => if bit = j then value else b))
    (s : PmmState) (count bit : ℕ) :
    PmmUpdate s (pmmRegionLoop op count bit s)
      (fun j b => if bit ≤ j ∧ j < bit + count ∧ j < s.pmmMaxBlocks then value else b) := by
  induction count generalizing s bit with
  | zero =>
    apply (PmmUpdate.refl s).congr
    intro j b
    rw [if_neg (by omega)]
  | succ count ih =>
    rw [pmmRegionLoop]
    split
    · apply (PmmUpdate.refl s).congr
      intro j b
      rw [if_neg (by omega)]
    · next inside =>
      have head := step s bit (by omega)
      apply (head.trans (ih (op s bit) (bit + 1))).congr
      intro j b
      rw [head.maxBlocks]
      by_cases first : bit = j
      · rw [if_pos first, if_pos (show bit ≤ j ∧ j < bit + (count + 1) ∧ j < s.pmmMaxBlocks by omega)]
        split <;> rfl
      · rw [if_neg first]
        congr 1
        exact propext ⟨fun h => by omega, fun h => by omega⟩

/-- Page `j` lies inside the region after rounding its ends inwards. -/
def RegionFrees (base size j : ℕ) : Prop :=
  alignUp base ≤ pageSize * j ∧ pageSize * (j + 1) ≤ alignDown ((base + size) % 2 ^ 64)

/-- Page `j` lies inside the region after rounding its ends outwards. -/
def RegionReserves (base size j : ℕ) : Prop :=
  alignDown base ≤ pageSize * j ∧ pageSize * (j + 1) ≤ alignUp ((base + size) % 2 ^ 64)

instance (base size j : ℕ) : Decidable (RegionFrees base size j) :=
  inferInstanceAs (Decidable (_ ∧ _))

instance (base size j : ℕ) : Decidable (RegionReserves base size j) :=
  inferInstanceAs (Decidable (_ ∧ _))

theorem alignDown_dvd (x : ℕ) : ∃ k, alignDown x = pageSize * k :=
  ⟨x / pageSize, Nat.mul_comm _ _⟩

theorem alignUp_dvd (x : ℕ) : ∃ k, alignUp x = pageSize * k :=
  ⟨(x + (pageSize - 1)) % 2 ^ 64 / pageSize, Nat.mul_comm _ _⟩

/-- The pages between two page-aligned addresses are those the loop counts. -/
private theorem pages_between {start stop : ℕ} (j : ℕ) (low : ∃ k, start = pageSize * k)
    (high : ∃ k, stop = pageSize * k) (ordered : start < stop) :
    (start / pageSize ≤ j ∧ j < start / pageSize + (stop - start) / pageSize) ↔
      (start ≤ pageSize * j ∧ pageSize * (j + 1) ≤ stop) := by
  obtain ⟨a, rfl⟩ := low
  obtain ⟨b, rfl⟩ := high
  simp only [pageSize] at ordered ⊢
  omega

theorem pmmInitRegion_update (s : PmmState) (base size : ℕ) :
    PmmUpdate s (pmmInitRegion s base size)
      (fun j b => if RegionFrees base size j ∧ j < s.pmmMaxBlocks then false else b) := by
  simp only [pmmInitRegion]
  split
  · next empty =>
    apply (PmmUpdate.refl s).congr
    intro j b
    rw [if_neg]
    rintro ⟨⟨low, high⟩, _⟩
    simp only [pageSize] at low high
    omega
  · next ordered =>
    have clears := pmmRegionLoop_update pmmClearBit false
      (fun s bit bound => (pmmClearBit_update s bound).congr fun j b => by
        by_cases same : bit = j <;> simp [same])
      s ((alignDown ((base + size) % 2 ^ 64) - alignUp base) / pageSize) (alignUp base / pageSize)
    apply clears.congr
    intro j b
    refine if_congr ?_ rfl rfl
    rw [← and_assoc, pages_between j (alignUp_dvd _) (alignDown_dvd _) (by omega), RegionFrees]

theorem pmmDeinitRegion_update (s : PmmState) (base size : ℕ) :
    PmmUpdate s (pmmDeinitRegion s base size)
      (fun j b => if RegionReserves base size j ∧ j < s.pmmMaxBlocks then true else b) := by
  simp only [pmmDeinitRegion]
  split
  · next empty =>
    apply (PmmUpdate.refl s).congr
    intro j b
    rw [if_neg]
    rintro ⟨⟨low, high⟩, _⟩
    simp only [pageSize] at low high
    omega
  · next ordered =>
    have sets := pmmRegionLoop_update pmmSetBit true
      (fun s bit bound => (pmmSetBit_update s bound).congr fun j b => by
        by_cases same : bit = j <;> simp [same])
      s ((alignUp ((base + size) % 2 ^ 64) - alignDown base) / pageSize) (alignDown base / pageSize)
    apply sets.congr
    intro j b
    refine if_congr ?_ rfl rfl
    rw [← and_assoc, pages_between j (alignDown_dvd _) (alignUp_dvd _) (by omega), RegionReserves]

end RaryOS.Model
