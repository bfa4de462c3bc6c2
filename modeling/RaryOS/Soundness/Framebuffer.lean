import RaryOS.Proofs.Framebuffer

/-! # Rectangles and scrolling

`fb_fill_rect` clips a rectangle to the screen by two 32-bit sums. A sum that wraps around is small, so the
rectangle is not clipped and leaves the screen. `fb_scroll_up` fills the strip below the moved rows, where
the sums are the width and the height themselves.
-/

namespace RaryOS.Soundness

open RaryOS.Core RaryOS.Model

/-- Exactly the pixels of the rectangle that are on the screen are set. -/
structure RectFilled (fb : Framebuffer) (x y w h rgb : ℕ) : Prop where
  set : ∀ i j, fb.InRect x y w h i j → (fb.fillRect x y w h rgb).pixel i j = rgb
  only : ∀ query, (fb.fillRectStores x y w h rgb).Covers 4 query →
    ∃ i j, fb.InRect x y w h i j ∧ fb.pixelAddress i j ≤ query ∧ query < fb.pixelAddress i j + 4

/-- The visible part of the framebuffer has moved up, and the rows below it are black. -/
structure ScrolledUp (fb : Framebuffer) (pixels : ℕ) : Prop where
  shows : ∀ x y, x < fb.width → y < fb.height →
    (fb.scrollUp pixels).pixel x y = if y + pixels < fb.height then fb.pixel x (y + pixels) else 0
  inside : ∀ query ∈ fb.scrollUpWrites pixels,
    fb.base ≤ query ∧ query < fb.base + fb.height * fb.pitch
  kept : ∀ query, query ∉ fb.scrollUpWrites pixels → (fb.scrollUp pixels).mem query = fb.mem query

section FillRect

variable {fb : Framebuffer} {x y w h : ℕ}

/-- A rectangle without columns or rows. -/
theorem fillRectStores_of_empty (rgb : ℕ) (empty : w = 0 ∨ h = 0) (column : x < fb.width)
    (row : y < fb.height) (fits : fb.Fits) : fb.fillRectStores x y w h rgb = [] := by
  have wide := fits.row
  have pitch := fits.pitch
  have height := fits.height
  rw [Framebuffer.fillRectStores, if_neg (by omega)]
  rcases empty with rfl | rfl
  · simp only [Nat.add_zero, Nat.mod_eq_of_lt (show x < 2 ^ 32 by omega), if_neg (show ¬fb.width < x by omega),
      List.range_zero, List.map_nil, List.flatMap_eq_nil_iff, implies_true]
  · simp only [Nat.add_zero, Nat.mod_eq_of_lt (show y < 2 ^ 32 by omega), if_neg (show ¬fb.height < y by omega),
      List.range_zero, List.flatMap_nil]

/-- A sum that wraps around leaves a store behind the last row. -/
theorem exists_store_outside (fits : fb.Fits) (rgb : ℕ) (column : x < fb.width) (row : y < fb.height)
    (wide : 0 < w) (high : 0 < h) (wLt : w < 2 ^ 32) (hLt : h < 2 ^ 32)
    (wraps : 2 ^ 32 ≤ x + w ∨ 2 ^ 32 ≤ y + h) :
    ∃ s ∈ fb.fillRectStores x y w h rgb, fb.base + fb.height * fb.pitch ≤ s.1 := by
  have rowSize := fits.row
  have pitch := fits.pitch
  have height := fits.height
  have size := fits.size
  rw [Framebuffer.fillRectStores, if_neg (by omega)]
  simp only [List.mem_flatMap, List.mem_range, List.mem_map]
  by_cases wrapsRow : 2 ^ 32 ≤ x + w
  · -- The last column that is stored is the last one of all.
    refine ⟨_, ⟨0, by split <;> omega, 2 ^ 32 - 1 - x, by split <;> omega, rfl⟩, ?_⟩
    rw [Framebuffer.pixelStore, show x + (2 ^ 32 - 1 - x) = 2 ^ 32 - 1 by omega]
    simp only
    omega
  · -- The row behind the last one is stored.
    refine ⟨_, ⟨fb.height - y, by split <;> omega, 0, by split <;> omega, rfl⟩, ?_⟩
    rw [show y + (fb.height - y) = fb.height by omega, Nat.mod_eq_of_lt height, fits.pixelStore_end]
    exact Nat.le_add_right _ _

/-- And no pixel of the screen is there. -/
theorem not_rectFilled_of_wraps (fits : fb.Fits) (rgb : ℕ) (column : x < fb.width) (row : y < fb.height)
    (wide : 0 < w) (high : 0 < h) (wLt : w < 2 ^ 32) (hLt : h < 2 ^ 32)
    (wraps : 2 ^ 32 ≤ x + w ∨ 2 ^ 32 ≤ y + h) : ¬RectFilled fb x y w h rgb := by
  intro filled
  obtain ⟨s, member, behind⟩ := exists_store_outside fits rgb column row wide high wLt hLt wraps
  obtain ⟨i, j, inside, _, below⟩ := filled.only s.1 ⟨s, member, le_rfl, by omega⟩
  have last := fits.offset_end_le (show i < fb.width by have := inside.2.1; omega)
    (show j < fb.height by have := inside.2.2.2; omega)
  rw [Framebuffer.pixelAddress] at below
  omega

/-- For every framebuffer and all 32-bit arguments: exactly the pixels of the rectangle on the screen are set
if and only if the rectangle begins beyond the screen, is empty, or has sums that fit 32 bits. -/
theorem rect_filled_iff (fits : fb.Fits) (wLt : w < 2 ^ 32) (hLt : h < 2 ^ 32) {rgb : ℕ} (rgbLt : rgb < 2 ^ 32) :
    RectFilled fb x y w h rgb ↔
      fb.width ≤ x ∨ fb.height ≤ y ∨ w = 0 ∨ h = 0 ∨ (x + w < 2 ^ 32 ∧ y + h < 2 ^ 32) := by
  constructor
  · intro filled
    by_contra bad
    exact not_rectFilled_of_wraps fits rgb (show x < fb.width by omega) (show y < fb.height by omega)
      (show 0 < w by omega) (show 0 < h by omega) wLt hLt (by omega) filled
  · intro good
    by_cases fitting : x + w < 2 ^ 32 ∧ y + h < 2 ^ 32
    · refine ⟨fun i j inside => ?_, ?_⟩
      · rw [fits.fillRect_pixel fitting.1 fitting.2 rgb (by have := inside.2.1; omega), if_pos inside,
          Nat.mod_eq_of_lt rgbLt]
      · rintro query ⟨s, member, lower, upper⟩
        obtain ⟨i, j, inside, rfl⟩ := (fits.mem_fillRectStores fitting.1 fitting.2 rgb s).mp member
        exact ⟨i, j, inside, lower, upper⟩
    · have nothing : fb.fillRectStores x y w h rgb = [] := by
        by_cases visible : x < fb.width ∧ y < fb.height
        · exact fillRectStores_of_empty rgb (by omega) visible.1 visible.2 fits
        · rw [Framebuffer.fillRectStores, if_pos (by omega)]
      refine ⟨fun i j inside => ?_, ?_⟩
      · rw [Framebuffer.InRect] at inside
        omega
      · rintro query ⟨s, member, _⟩
        rw [nothing] at member
        cases member

end FillRect

/-- The framebuffer that the boot header asks for. -/
def sampleFramebuffer : Framebuffer :=
  { mem := fun _ => 0, base := 0xFD000000, width := 1280, height := 400, pitch := 5120, ok := true }

theorem sampleFramebuffer_fits : sampleFramebuffer.Fits := by
  constructor <;> decide

theorem rect_filled_iff_sample : RectFilled sampleFramebuffer 1200 390 500 16 0xAAAAAA :=
  (rect_filled_iff sampleFramebuffer_fits (by decide) (by decide) (by decide)).mpr (by decide)

/-- A row of 2^32 - 1 pixels from column 1 on is not clipped. -/
theorem rect_filled_fails : ¬RectFilled sampleFramebuffer 1 0 0xFFFFFFFF 1 0xAAAAAA :=
  not_rectFilled_of_wraps sampleFramebuffer_fits _ (by decide) (by decide) (by decide) (by decide) (by decide)
    (by decide) (by decide)

section ScrollUp

variable {fb : Framebuffer} {pixels : ℕ}

/-- After the bytes are moved, before the strip is filled. -/
def movedUp (fb : Framebuffer) (pixels : ℕ) : Framebuffer :=
  { fb with
    mem := (List.range ((fb.height - pixels) * fb.pitch)).foldl
      (fun m i => m.store8 (fb.base + i) (m (fb.base + pixels * fb.pitch + i))) fb.mem }

theorem movedUp_fits (fits : fb.Fits) : (movedUp fb pixels).Fits :=
  ⟨fits.pitch, fits.height, fits.row, fits.size⟩

theorem movedUp_apply (query : ℕ) :
    (movedUp fb pixels).mem query =
      if fb.base ≤ query ∧ query < fb.base + (fb.height - pixels) * fb.pitch then
        fb.mem (fb.base + pixels * fb.pitch + (query - fb.base))
      else fb.mem query :=
  Memory.copyDown_apply _ (Nat.le_add_right _ _) _ _

/-- The products of `fb_scroll_up` do not wrap around. -/
theorem scrollUp_eq (fits : fb.Fits) (small : pixels < fb.height) :
    fb.scrollUp pixels = (movedUp fb pixels).fillRect 0 (fb.height - pixels) fb.width pixels 0 := by
  have size := fits.size
  have rest : (fb.height - pixels) * fb.pitch ≤ fb.height * fb.pitch :=
    Nat.mul_le_mul_right _ (Nat.sub_le _ _)
  rw [Framebuffer.scrollUp, if_neg (Nat.not_le.mpr small), Nat.mod_eq_of_lt (by omega),
    Nat.mod_eq_of_lt (fits.offset_lt small)]
  rfl

/-- A pixel that has moved. -/
theorem movedUp_pixel (fits : fb.Fits) {x y : ℕ} (column : x < fb.width) (moved : y + pixels < fb.height) :
    (movedUp fb pixels).pixel x y = fb.pixel x (y + pixels) := by
  have last : y * fb.pitch + fb.pitch ≤ (fb.height - pixels) * fb.pitch :=
    Framebuffer.row_end_le _ (show y < fb.height - pixels by omega)
  have wide := fits.row
  have product : (y + pixels) * fb.pitch = y * fb.pitch + pixels * fb.pitch := Nat.add_mul _ _ _
  apply Memory.load_eq_of_bytes
  intro k inside
  rw [movedUp_apply, if_pos]
  · congr 1
    simp only [Framebuffer.pixelAddress, movedUp]
    omega
  · simp only [Framebuffer.pixelAddress, movedUp]
    omega

/-- For every framebuffer, every content and every number of pixels below the height: the screen moves up,
the rows below are black, and no byte outside the framebuffer is written. -/
theorem scrolled_up (fits : fb.Fits) (small : pixels < fb.height) : ScrolledUp fb pixels := by
  have fits' : (movedUp fb pixels).Fits := movedUp_fits fits
  have wide := fits.row
  have pitch := fits.pitch
  have height := fits.height
  have size := fits.size
  have rest : (fb.height - pixels) * fb.pitch ≤ fb.height * fb.pitch :=
    Nat.mul_le_mul_right _ (Nat.sub_le _ _)
  have horizontal : 0 + fb.width < 2 ^ 32 := by omega
  have vertical : fb.height - pixels + pixels < 2 ^ 32 := by omega
  have strip := fits.mem_fillRectStores horizontal vertical 0
  have writes : fb.scrollUpWrites pixels =
      (List.range ((fb.height - pixels) * fb.pitch)).map (fb.base + ·) ++
        (fb.fillRectStores 0 (fb.height - pixels) fb.width pixels 0).flatMap fun s => List.range' s.1 4 := by
    rw [Framebuffer.scrollUpWrites, if_neg (Nat.not_le.mpr small), Nat.mod_eq_of_lt (by omega)]
  refine ⟨fun x y column row => ?_, fun query member => ?_, fun query outside => ?_⟩
  · rw [scrollUp_eq fits small, fits'.fillRect_pixel horizontal vertical 0 column]
    split
    · next inside =>
      rw [if_neg (by have := inside.2.2.1; omega)]
      rfl
    · next outside =>
      have moved : y + pixels < fb.height := by
        by_contra below
        exact outside ⟨Nat.zero_le x, by simp only [movedUp]; omega, by omega, by simp only [movedUp]; omega⟩
      rw [if_pos moved, movedUp_pixel fits column moved]
  · rw [writes, List.mem_append, List.mem_map, List.mem_flatMap] at member
    rcases member with ⟨i, inside, rfl⟩ | ⟨s, stored, inside⟩
    · rw [List.mem_range] at inside
      omega
    · obtain ⟨i, j, shown, rfl⟩ := (strip s).mp stored
      have last := fits.offset_end_le (show i < fb.width by have := shown.2.1; omega)
        (show j < fb.height by have := shown.2.2.2; omega)
      rw [List.mem_range'_1, Framebuffer.pixelAddress] at inside
      omega
  · rw [writes, List.mem_append, List.mem_map, List.mem_flatMap, not_or] at outside
    rw [scrollUp_eq fits small, Framebuffer.fillRect_eq]
    refine (Memory.storeAll_apply_of_not_covers _ ?_).trans ?_
    · rintro ⟨s, stored, lower, upper⟩
      exact outside.2 ⟨s, stored, List.mem_range'_1.mpr ⟨lower, upper⟩⟩
    · rw [movedUp_apply, if_neg]
      rintro ⟨lower, upper⟩
      exact outside.1 ⟨query - fb.base, List.mem_range.mpr (by omega), by omega⟩

end ScrollUp

theorem scrolled_up_sample : ScrolledUp sampleFramebuffer 16 := scrolled_up sampleFramebuffer_fits (by decide)

end RaryOS.Soundness
