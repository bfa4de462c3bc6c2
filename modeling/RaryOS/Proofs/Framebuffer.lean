import RaryOS.Model.Framebuffer
import Mathlib.Tactic.Common

/-! # Pixels as words of their own

On a framebuffer whose rows fit its pitch, no two pixels share a byte and all of them lie in the first
`height * pitch` bytes. So a rectangle whose sums do not wrap around is filled pixel by pixel, and
nothing else is written.
-/

namespace RaryOS.Model.Framebuffer

open RaryOS.Core

variable {fb : Framebuffer} {i j i' j' : ℕ}

/-- A row ends before the next one begins. -/
theorem row_end_le (fb : Framebuffer) {y y' : ℕ} (below : y < y') : y * fb.pitch + fb.pitch ≤ y' * fb.pitch := by
  rw [← Nat.succ_mul]
  exact Nat.mul_le_mul_right _ below

namespace Fits

variable (fits : fb.Fits)

include fits

/-- A pixel lies inside the framebuffer. -/
theorem offset_end_le (column : i < fb.width) (row : j < fb.height) :
    j * fb.pitch + 4 * i + 4 ≤ fb.height * fb.pitch := by
  have next := fb.row_end_le row
  have wide := fits.row
  omega

theorem offset_lt (row : j < fb.height) : j * fb.pitch < 2 ^ 32 := by
  have next := fb.row_end_le row
  have size := fits.size
  omega

theorem pixelStore_eq (row : j < fb.height) (rgb : ℕ) : fb.pixelStore i j rgb = (fb.pixelAddress i j, rgb) := by
  rw [pixelStore, pixelAddress, Nat.mod_eq_of_lt (fits.offset_lt row)]

theorem putPixel_eq (column : i < fb.width) (row : j < fb.height) (rgb : ℕ) :
    fb.putPixel i j rgb = { fb with mem := fb.mem.store32 (fb.pixelAddress i j) rgb } := by
  rw [putPixel, if_neg (by omega), storePixel, Nat.mod_eq_of_lt (fits.offset_lt row), pixelAddress]

/-- The row behind the last one. -/
theorem pixelStore_end (i rgb : ℕ) : fb.pixelStore i fb.height rgb = (fb.pixelAddress i fb.height, rgb) := by
  rw [pixelStore, pixelAddress, Nat.mod_eq_of_lt fits.size]

/-- Different pixels share no byte. -/
theorem pixels_apart (column : i < fb.width) (column' : i' < fb.width) (other : ¬(i = i' ∧ j = j')) :
    fb.pixelAddress i j + 4 ≤ fb.pixelAddress i' j' ∨ fb.pixelAddress i' j' + 4 ≤ fb.pixelAddress i j := by
  have wide := fits.row
  simp only [pixelAddress]
  rcases Nat.lt_trichotomy j j' with above | rfl | below
  · have next := fb.row_end_le above
    omega
  · omega
  · have next := fb.row_end_le below
    omega

variable {x y w h : ℕ}

/-- The stores of a rectangle whose sums do not wrap around. -/
theorem mem_fillRectStores (horizontal : x + w < 2 ^ 32) (vertical : y + h < 2 ^ 32) (rgb : ℕ) (s : ℕ × ℕ) :
    s ∈ fb.fillRectStores x y w h rgb ↔ ∃ i j, fb.InRect x y w h i j ∧ s = (fb.pixelAddress i j, rgb) := by
  rw [fillRectStores, Nat.mod_eq_of_lt horizontal, Nat.mod_eq_of_lt vertical]
  split
  · next outside =>
    simp only [List.not_mem_nil, InRect, false_iff]
    rintro ⟨i, j, inside, _⟩
    omega
  · next visible =>
    have height := fits.height
    simp only [List.mem_flatMap, List.mem_range, List.mem_map, InRect]
    constructor
    · rintro ⟨j, row, i, column, rfl⟩
      have clipped : x + i < min (x + w) fb.width ∧ y + j < min (y + h) fb.height := by
        split at row <;> split at column <;> omega
      refine ⟨x + i, y + j, ⟨by omega, clipped.1, by omega, clipped.2⟩, ?_⟩
      rw [Nat.mod_eq_of_lt (show x + i < 2 ^ 32 by omega), Nat.mod_eq_of_lt (show y + j < 2 ^ 32 by omega)]
      exact fits.pixelStore_eq (by omega) rgb
    · rintro ⟨i, j, inside, rfl⟩
      refine ⟨j - y, by split <;> omega, i - x, by split <;> omega, ?_⟩
      rw [Nat.mod_eq_of_lt (show x + (i - x) < 2 ^ 32 by omega),
        Nat.mod_eq_of_lt (show y + (j - y) < 2 ^ 32 by omega), fits.pixelStore_eq (by omega),
        show x + (i - x) = i by omega, show y + (j - y) = j by omega]

/-- What is on the screen after filling such a rectangle. -/
theorem fillRect_pixel (horizontal : x + w < 2 ^ 32) (vertical : y + h < 2 ^ 32) (rgb : ℕ)
    (column : i < fb.width) :
    (fb.fillRect x y w h rgb).pixel i j = if fb.InRect x y w h i j then rgb % 2 ^ 32 else fb.pixel i j := by
  have shown : (fb.fillRect x y w h rgb).pixel i j =
      (fb.mem.storeAll 4 (fb.fillRectStores x y w h rgb)).load32 (fb.pixelAddress i j) := by
    rw [fillRect_eq]
    rfl
  rw [shown]
  have stores := fits.mem_fillRectStores horizontal vertical rgb
  split
  · next inside =>
    apply Memory.load_storeAll_of_mem
    · exact (stores _).mpr ⟨i, j, inside, rfl⟩
    · intro s member
      obtain ⟨i', j', inside', rfl⟩ := (stores s).mp member
      by_cases same : i = i' ∧ j = j'
      · exact Or.inl (by rw [same.1, same.2])
      · exact Or.inr (fits.pixels_apart column (by have := inside'.2.1; omega) same)
  · next outside =>
    apply Memory.load_storeAll_of_apart
    intro s member
    obtain ⟨i', j', inside', rfl⟩ := (stores s).mp member
    refine fits.pixels_apart column (by have := inside'.2.1; omega) ?_
    rintro ⟨rfl, rfl⟩
    exact outside inside'

end Fits

end RaryOS.Model.Framebuffer
