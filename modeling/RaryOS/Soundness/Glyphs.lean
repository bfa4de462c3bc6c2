import RaryOS.Soundness.Framebuffer

/-! # Drawing glyphs

`fb_draw_glyph` stores its pixels without the test that `fb_put_pixel` makes for each of them, and tests the
whole square instead. Inside the screen both leave the same memory. The sums of the test are 32-bit, so a
square that is not on the screen may pass it.
-/

namespace RaryOS.Soundness

open RaryOS.Core RaryOS.Model

/-- A pixel with its colour. -/
abbrev ColoredPixel := ℕ × ℕ × ℕ

/-- The pixels of the glyph in the square of `8 * scale` pixels at `(cx, cy)`. -/
def glyphPixels (cx cy : ℕ) (glyph : ℕ → BitVec 8) (fg bg scale : ℕ) : List ColoredPixel :=
  (List.range (8 * scale)).flatMap fun y => (List.range (8 * scale)).map fun x =>
    (cx + x, cy + y, if (glyph (y / scale)).getLsbD (7 - x / scale) then fg else bg)

/-- `fb_put_pixel` for every pixel of a list. -/
def putPixels (fb : Framebuffer) (pixels : List ColoredPixel) : Framebuffer :=
  pixels.foldl (fun fb p => fb.putPixel p.1 p.2.1 p.2.2) fb

/-- The square lies inside the framebuffer. -/
def SquareInside (fb : Framebuffer) (cx cy scale : ℕ) : Prop :=
  cx + 8 * scale ≤ fb.width ∧ cy + 8 * scale ≤ fb.height

instance (fb : Framebuffer) (cx cy scale : ℕ) : Decidable (SquareInside fb cx cy scale) :=
  inferInstanceAs (Decidable (_ ∧ _))

/-- Inside the framebuffer the glyph is drawn as `fb_put_pixel` draws it, in any order of its pixels.
Elsewhere nothing is stored. -/
structure GlyphDrawn (fb : Framebuffer) (cx cy : ℕ) (glyph : ℕ → BitVec 8) (fg bg scale : ℕ) : Prop where
  plotted : SquareInside fb cx cy scale →
    ∀ pixels, pixels.Perm (glyphPixels cx cy glyph fg bg scale) →
      fb.drawGlyph cx cy glyph fg bg scale = putPixels fb pixels
  dropped : ¬SquareInside fb cx cy scale → fb.drawGlyphStores cx cy glyph fg bg scale = []

section Pixels

variable {fb : Framebuffer}

/-- The store for a pixel, in exact arithmetic. -/
def plot (fb : Framebuffer) (p : ColoredPixel) : ℕ × ℕ := (fb.pixelAddress p.1 p.2.1, p.2.2)

/-- Pixels on the screen are stored one by one. -/
theorem putPixels_eq (fits : fb.Fits) (pixels : List ColoredPixel)
    (inside : ∀ p ∈ pixels, p.1 < fb.width ∧ p.2.1 < fb.height) :
    putPixels fb pixels = { fb with mem := fb.mem.storeAll 4 (pixels.map (plot fb)) } := by
  induction pixels generalizing fb with
  | nil => rfl
  | cons p pixels ih =>
    have here := inside p (List.mem_cons_self ..)
    have rest := fun q member => inside q (List.mem_cons_of_mem p member)
    rw [putPixels, List.foldl_cons, fits.putPixel_eq here.1 here.2]
    have stored : Framebuffer.Fits { fb with mem := fb.mem.store32 (fb.pixelAddress p.1 p.2.1) p.2.2 } :=
      ⟨fits.pitch, fits.height, fits.row, fits.size⟩
    exact ih stored rest

variable {cx cy scale : ℕ} {glyph : ℕ → BitVec 8} {fg bg : ℕ}

theorem mem_glyphPixels {p : ColoredPixel} (member : p ∈ glyphPixels cx cy glyph fg bg scale) :
    ∃ x < 8 * scale, ∃ y < 8 * scale,
      p = (cx + x, cy + y, if (glyph (y / scale)).getLsbD (7 - x / scale) then fg else bg) := by
  simp only [glyphPixels, List.mem_flatMap, List.mem_range, List.mem_map] at member
  obtain ⟨y, row, x, column, rfl⟩ := member
  exact ⟨x, column, y, row, rfl⟩

/-- The order of the pixels does not matter. -/
theorem putPixels_perm (fits : fb.Fits) (inside : SquareInside fb cx cy scale) {pixels : List ColoredPixel}
    (perm : pixels.Perm (glyphPixels cx cy glyph fg bg scale)) :
    putPixels fb pixels = putPixels fb (glyphPixels cx cy glyph fg bg scale) := by
  have onScreen : ∀ p ∈ glyphPixels cx cy glyph fg bg scale, p.1 < fb.width ∧ p.2.1 < fb.height := by
    intro p member
    obtain ⟨x, column, y, row, rfl⟩ := mem_glyphPixels member
    have right := inside.1
    have bottom := inside.2
    simp only
    omega
  rw [putPixels_eq fits pixels fun p member => onScreen p (perm.mem_iff.mp member),
    putPixels_eq fits _ onScreen, Memory.storeAll_perm _ (perm.map (plot fb))]
  intro s first t second
  obtain ⟨p, here, rfl⟩ := List.mem_map.mp first
  obtain ⟨q, there, rfl⟩ := List.mem_map.mp second
  obtain ⟨x, _, y, _, rfl⟩ := mem_glyphPixels (perm.mem_iff.mp here)
  obtain ⟨x', _, y', _, rfl⟩ := mem_glyphPixels (perm.mem_iff.mp there)
  by_cases same : x = x' ∧ y = y'
  · exact Or.inl (by rw [same.1, same.2])
  · refine Or.inr (fits.pixels_apart (onScreen _ (perm.mem_iff.mp here)).1
      (onScreen _ (perm.mem_iff.mp there)).1 ?_)
    simp only
    omega

end Pixels

section DrawGlyph

variable {fb : Framebuffer} {cx cy scale : ℕ} {glyph : ℕ → BitVec 8} {fg bg : ℕ}

/-- Inside the framebuffer `fb_draw_glyph` stores the pixels row by row. -/
theorem drawGlyphStores_of_inside (fits : fb.Fits) (aligned : fb.pitch % 4 = 0) (ok : fb.ok = true)
    (inside : SquareInside fb cx cy scale) :
    fb.drawGlyphStores cx cy glyph fg bg scale = (glyphPixels cx cy glyph fg bg scale).map (plot fb) := by
  obtain ⟨right, bottom⟩ := inside
  have wide := fits.row
  have pitch := fits.pitch
  have height := fits.height
  have stride : fb.pitch = 4 * (fb.pitch / 4) := by omega
  have block (q r : ℕ) (first : q < 8) (second : r < scale) :
      q * scale + r < 8 * scale ∧ (q * scale + r) / scale = q := by
    refine ⟨?_, ?_⟩
    · calc
        q * scale + r < q * scale + scale := Nat.add_lt_add_left second _
        _ = (q + 1) * scale := (Nat.succ_mul q scale).symm
        _ ≤ 8 * scale := Nat.mul_le_mul_right _ first
    · rw [Nat.mul_comm, Nat.mul_add_div (by omega), Nat.div_eq_of_lt second, Nat.add_zero]
  rw [Framebuffer.drawGlyphStores, ok, Nat.mod_eq_of_lt (by omega), Nat.mod_eq_of_lt (by omega),
    if_neg (by decide), if_neg (by omega)]
  simp only [glyphPixels, flatMap_range_mul, map_range_mul, List.map_flatMap, List.map_map]
  refine List.flatMap_congr fun row first => List.flatMap_congr fun sRow second =>
    List.flatMap_congr fun col third => List.map_congr_left fun sCol fourth => ?_
  rw [List.mem_range] at first second third fourth
  obtain ⟨rowInside, rowOf⟩ := block row sRow first second
  obtain ⟨colInside, colOf⟩ := block col sCol third fourth
  -- Both functions come to the same word, one by counting pixels and the other by counting bytes.
  have line := fits.offset_end_le (i := cx) (j := cy + row * scale + sRow) (by omega) (by omega)
  have size := fits.size
  have words : 4 * ((cy + row * scale + sRow) * (fb.pitch / 4)) = (cy + row * scale + sRow) * fb.pitch := by
    rw [Nat.mul_left_comm, ← stride]
  rw [Function.comp_apply, plot, Framebuffer.pixelAddress,
    Nat.mod_eq_of_lt (show cy + row * scale + sRow < 2 ^ 32 by omega),
    Nat.mod_eq_of_lt (show col * scale + sCol < 2 ^ 32 by omega),
    Nat.mod_eq_of_lt (show (cy + row * scale + sRow) * (fb.pitch / 4) + cx < 2 ^ 32 by omega), rowOf, colOf]
  simp only [← Nat.add_assoc, Prod.mk.injEq, and_true]
  omega

/-- A square with pixels is drawn when the test lets it pass. -/
theorem drawGlyphStores_ne_nil (ok : fb.ok = true) (right : (cx + 8 * scale) % 2 ^ 32 ≤ fb.width)
    (bottom : (cy + 8 * scale) % 2 ^ 32 ≤ fb.height) (positive : 0 < scale) :
    fb.drawGlyphStores cx cy glyph fg bg scale ≠ [] := by
  rw [Framebuffer.drawGlyphStores, ok, if_neg (by decide), if_neg (by omega)]
  apply List.ne_nil_of_mem
  simp only [List.mem_flatMap, List.mem_range, List.mem_map]
  exact ⟨0, by decide, 0, positive, 0, by decide, 0, positive, rfl⟩

/-- For every framebuffer and all 32-bit `cx`, `cy` and `scale`: `fb_draw_glyph` draws what `fb_put_pixel`
draws, or nothing, if and only if a square whose 32-bit sums pass the test is inside the framebuffer. -/
theorem glyph_drawn_iff (fits : fb.Fits) (aligned : fb.pitch % 4 = 0) (ok : fb.ok = true) (cxLt : cx < 2 ^ 32)
    (cyLt : cy < 2 ^ 32) :
    GlyphDrawn fb cx cy glyph fg bg scale ↔
      ((cx + 8 * scale) % 2 ^ 32 ≤ fb.width → (cy + 8 * scale) % 2 ^ 32 ≤ fb.height →
        SquareInside fb cx cy scale) := by
  constructor
  · intro drawn right bottom
    by_contra outside
    have positive : 0 < scale := by
      refine Nat.pos_of_ne_zero ?_
      rintro rfl
      rw [SquareInside] at outside
      omega
    exact drawGlyphStores_ne_nil ok right bottom positive (drawn.dropped outside)
  · intro passes
    refine ⟨fun inside pixels perm => ?_, fun outside => ?_⟩
    · rw [putPixels_perm fits inside perm, Framebuffer.drawGlyph_eq,
        drawGlyphStores_of_inside fits aligned ok inside, putPixels_eq fits]
      intro p member
      obtain ⟨x, column, y, row, rfl⟩ := mem_glyphPixels member
      have right := inside.1
      have bottom := inside.2
      simp only
      omega
    · have refused : fb.width < (cx + 8 * scale) % 2 ^ 32 ∨ fb.height < (cy + 8 * scale) % 2 ^ 32 := by
        by_contra both
        exact outside (passes (by omega) (by omega))
      rw [Framebuffer.drawGlyphStores, ok, if_neg (by decide), if_pos refused]

end DrawGlyph

theorem glyph_drawn_iff_sample : GlyphDrawn sampleFramebuffer 1264 384 (fun _ => 0x18) 0xAAAAAA 0 2 :=
  (glyph_drawn_iff sampleFramebuffer_fits (by decide) rfl (by decide) (by decide)).mpr (by decide)

/-- Eight columns left of the screen, as a 32-bit number, the right edge of the glyph is 0. -/
theorem glyph_drawn_fails : ¬GlyphDrawn sampleFramebuffer 0xFFFFFFF8 0 (fun _ => 0x18) 0xAAAAAA 0 1 :=
  fun drawn => drawGlyphStores_ne_nil rfl (by decide) (by decide) (by decide) (drawn.dropped (by decide))

end RaryOS.Soundness
