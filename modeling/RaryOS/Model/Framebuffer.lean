import RaryOS.Core.StoreLog

/-! # The linear framebuffer

`fb.c` draws into a 32-bit framebuffer that `fb_init` takes from the boot information. Coordinates,
sizes and byte offsets are 32-bit; `FB_HW_MIRROR` is 0. Next to the functions stand the lists of the
stores that they make.
-/

namespace RaryOS.Model

open RaryOS.Core

/-- The static variables of `fb.c` and the memory they describe. -/
structure Framebuffer where
  mem : Memory
  base : ℕ := 0
  width : ℕ := 0
  height : ℕ := 0
  pitch : ℕ := 0
  ok : Bool := false

namespace Framebuffer

/-- `((uint32_t*)(fb_base + y * fb_pitch))[x] = rgb`, in the memory `m`. -/
def storePixel (fb : Framebuffer) (m : Memory) (x y rgb : ℕ) : Memory :=
  m.store32 (fb.base + y * fb.pitch % 2 ^ 32 + 4 * x) rgb

/-- `fb_put_pixel`. -/
def putPixel (fb : Framebuffer) (x y rgb : ℕ) : Framebuffer :=
  if fb.width ≤ x ∨ fb.height ≤ y then fb else { fb with mem := fb.storePixel fb.mem x y rgb }

/-- `fb_fill_rect`. -/
def fillRect (fb : Framebuffer) (x y w h rgb : ℕ) : Framebuffer :=
  if fb.width ≤ x ∨ fb.height ≤ y then fb
  else
    let w := if fb.width < (x + w) % 2 ^ 32 then fb.width - x else w
    let h := if fb.height < (y + h) % 2 ^ 32 then fb.height - y else h
    { fb with
      mem := (List.range h).foldl (fun m j =>
        (List.range w).foldl (fun m i =>
          fb.storePixel m ((x + i) % 2 ^ 32) ((y + j) % 2 ^ 32) rgb) m) fb.mem }

/-- `fb_clear`. -/
def clear (fb : Framebuffer) (rgb : ℕ) : Framebuffer := fb.fillRect 0 0 fb.width fb.height rgb

/-- `fb_scroll_up`: the bytes are moved one by one, upwards in memory. -/
def scrollUp (fb : Framebuffer) (pixels : ℕ) : Framebuffer :=
  if fb.height ≤ pixels then fb
  else
    let bytesToMove := (fb.height - pixels) * fb.pitch % 2 ^ 32
    let src := fb.base + pixels * fb.pitch % 2 ^ 32
    let moved : Framebuffer :=
      { fb with
        mem := (List.range bytesToMove).foldl (fun m i => m.store8 (fb.base + i) (m (src + i))) fb.mem }
    moved.fillRect 0 (fb.height - pixels) fb.width pixels 0x000000

/-- `fb_draw_glyph`: each of the 8 by 8 bits becomes a square of `scale` by `scale` pixels. -/
def drawGlyph (fb : Framebuffer) (cx cy : ℕ) (glyph : ℕ → BitVec 8) (fg bg scale : ℕ) : Framebuffer :=
  if !fb.ok then fb
  else if fb.width < (cx + 8 * scale) % 2 ^ 32 ∨ fb.height < (cy + 8 * scale) % 2 ^ 32 then fb
  else
    let stride := fb.pitch / 4
    { fb with
      mem := (List.range 8).foldl (fun m row =>
        (List.range scale).foldl (fun m sRow =>
          let currentY := (cy + row * scale + sRow) % 2 ^ 32
          let destRow := fb.base + 4 * ((currentY * stride + cx) % 2 ^ 32)
          (List.range 8).foldl (fun m col =>
            let color := if (glyph row).getLsbD (7 - col) then fg else bg
            (List.range scale).foldl (fun m sCol =>
              m.store32 (destRow + 4 * ((col * scale + sCol) % 2 ^ 32)) color) m) m) m) fb.mem }

/-! ## The stores -/

/-- The store of `storePixel`. -/
def pixelStore (fb : Framebuffer) (x y rgb : ℕ) : ℕ × ℕ := (fb.base + y * fb.pitch % 2 ^ 32 + 4 * x, rgb)

/-- The stores of `fb_fill_rect`. -/
def fillRectStores (fb : Framebuffer) (x y w h rgb : ℕ) : StoreLog :=
  if fb.width ≤ x ∨ fb.height ≤ y then []
  else
    let w := if fb.width < (x + w) % 2 ^ 32 then fb.width - x else w
    let h := if fb.height < (y + h) % 2 ^ 32 then fb.height - y else h
    (List.range h).flatMap fun j =>
      (List.range w).map fun i => fb.pixelStore ((x + i) % 2 ^ 32) ((y + j) % 2 ^ 32) rgb

/-- The bytes that `fb_scroll_up` writes: those that are moved, and those of the words stored after it. -/
def scrollUpWrites (fb : Framebuffer) (pixels : ℕ) : List ℕ :=
  if fb.height ≤ pixels then []
  else
    (List.range ((fb.height - pixels) * fb.pitch % 2 ^ 32)).map (fb.base + ·) ++
      (fb.fillRectStores 0 (fb.height - pixels) fb.width pixels 0x000000).flatMap fun s => List.range' s.1 4

/-- The stores of `fb_draw_glyph`. -/
def drawGlyphStores (fb : Framebuffer) (cx cy : ℕ) (glyph : ℕ → BitVec 8) (fg bg scale : ℕ) : StoreLog :=
  if !fb.ok then []
  else if fb.width < (cx + 8 * scale) % 2 ^ 32 ∨ fb.height < (cy + 8 * scale) % 2 ^ 32 then []
  else
    let stride := fb.pitch / 4
    (List.range 8).flatMap fun row => (List.range scale).flatMap fun sRow =>
      let currentY := (cy + row * scale + sRow) % 2 ^ 32
      let destRow := fb.base + 4 * ((currentY * stride + cx) % 2 ^ 32)
      (List.range 8).flatMap fun col =>
        let color := if (glyph row).getLsbD (7 - col) then fg else bg
        (List.range scale).map fun sCol => (destRow + 4 * ((col * scale + sCol) % 2 ^ 32), color)

theorem fillRect_eq (fb : Framebuffer) (x y w h rgb : ℕ) :
    fb.fillRect x y w h rgb = { fb with mem := fb.mem.storeAll 4 (fb.fillRectStores x y w h rgb) } := by
  rw [fillRect, fillRectStores]
  split
  · rfl
  · simp only [Memory.storeAll, List.foldl_flatMap, List.foldl_map]
    rfl

theorem drawGlyph_eq (fb : Framebuffer) (cx cy : ℕ) (glyph : ℕ → BitVec 8) (fg bg scale : ℕ) :
    fb.drawGlyph cx cy glyph fg bg scale =
      { fb with mem := fb.mem.storeAll 4 (fb.drawGlyphStores cx cy glyph fg bg scale) } := by
  rw [drawGlyph, drawGlyphStores]
  split
  · rfl
  · split
    · rfl
    · simp only [Memory.storeAll, List.foldl_flatMap, List.foldl_map]
      rfl

/-- Drawing changes no static variable. -/
structure SameScreen (fb fb' : Framebuffer) : Prop where
  width : fb'.width = fb.width
  height : fb'.height = fb.height
  ok : fb'.ok = fb.ok

theorem SameScreen.refl (fb : Framebuffer) : SameScreen fb fb := ⟨rfl, rfl, rfl⟩

theorem fillRect_same (fb : Framebuffer) (x y w h rgb : ℕ) : SameScreen fb (fb.fillRect x y w h rgb) := by
  rw [fillRect]
  split
  · exact .refl fb
  · exact ⟨rfl, rfl, rfl⟩

theorem scrollUp_same (fb : Framebuffer) (pixels : ℕ) : SameScreen fb (fb.scrollUp pixels) := by
  rw [scrollUp]
  split
  · exact .refl fb
  · have filled := fillRect_same { fb with
      mem := (List.range ((fb.height - pixels) * fb.pitch % 2 ^ 32)).foldl
        (fun m i => m.store8 (fb.base + i) (m (fb.base + pixels * fb.pitch % 2 ^ 32 + i))) fb.mem }
      0 (fb.height - pixels) fb.width pixels 0x000000
    exact ⟨filled.width, filled.height, filled.ok⟩

theorem drawGlyph_same (fb : Framebuffer) (cx cy : ℕ) (glyph : ℕ → BitVec 8) (fg bg scale : ℕ) :
    SameScreen fb (fb.drawGlyph cx cy glyph fg bg scale) := by
  rw [drawGlyph]
  split
  · exact .refl fb
  · split
    · exact .refl fb
    · exact ⟨rfl, rfl, rfl⟩

/-! ## Pixels -/

/-- The rows do not overlap, and the byte offsets are counted in 32 bits. -/
structure Fits (fb : Framebuffer) : Prop where
  pitch : fb.pitch < 2 ^ 32
  height : fb.height < 2 ^ 32
  row : 4 * fb.width ≤ fb.pitch
  size : fb.height * fb.pitch < 2 ^ 32

/-- Where the pixel in column `x` and row `y` is. -/
def pixelAddress (fb : Framebuffer) (x y : ℕ) : ℕ := fb.base + y * fb.pitch + 4 * x

/-- Its colour. -/
def pixel (fb : Framebuffer) (x y : ℕ) : ℕ := fb.mem.load32 (fb.pixelAddress x y)

/-- The pixels of a rectangle that are on the screen. -/
def InRect (fb : Framebuffer) (x y w h i j : ℕ) : Prop :=
  x ≤ i ∧ i < min (x + w) fb.width ∧ y ≤ j ∧ j < min (y + h) fb.height

instance (fb : Framebuffer) (x y w h i j : ℕ) : Decidable (fb.InRect x y w h i j) :=
  inferInstanceAs (Decidable (_ ∧ _ ∧ _ ∧ _))

end Framebuffer

end RaryOS.Model
