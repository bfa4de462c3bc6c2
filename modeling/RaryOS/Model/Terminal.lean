import RaryOS.Model.Framebuffer

/-! # The terminal

`terminal_putchar` has two back ends: the framebuffer, where the column is counted in pixels and each
character is a square of 16 by 16 of them, and the VGA text buffer of 25 rows of 80 cells. Characters
are bytes. The glyphs of the font are left open.
-/

namespace RaryOS.Model

def newline : BitVec 8 := 0x0A
def backspace : BitVec 8 := 0x08
def space : BitVec 8 := 0x20

/-- `VGA_W`, `VGA_H`, and `CHAR_W`, `CHAR_H` for `FB_SCALE` 2. -/
def vgaW : ℕ := 80
def vgaH : ℕ := 25
def fbScale : ℕ := 2
def charW : ℕ := 8 * fbScale
def charH : ℕ := 8 * fbScale

theorem vgaW_pos : 0 < vgaW := by decide

theorem vgaH_pos : 0 < vgaH := by decide

/-- The cell for a character: the attribute byte above the character byte. -/
def vgaEntry (c color : BitVec 8) : BitVec 16 := c.setWidth 16 ||| color.setWidth 16 <<< 8

/-- `(uint16_t)' ' | (uint16_t)(0x07 << 8)`. -/
def vgaBlank : BitVec 16 := vgaEntry space 0x07

@[simp] theorem vgaEntry_char (c color : BitVec 8) : (vgaEntry c color).setWidth 8 = c := by
  ext i
  simp [vgaEntry]

def vgaPalette : List ℕ :=
  [0x000000, 0x0000AA, 0x00AA00, 0x00AAAA, 0xAA0000, 0xAA00AA, 0xAA5500, 0xAAAAAA,
    0x555555, 0x5555FF, 0x55FF55, 0x55FFFF, 0xFF5555, 0xFF55FF, 0xFFFF55, 0xFFFFFF]

/-- The variables of `terminal.c`, the text buffer as an array of cells, and the framebuffer. -/
structure Terminal where
  fb : Framebuffer
  fontData : ℕ → ℕ → BitVec 8
  vga : ℕ → BitVec 16
  terminalRow : ℕ := 0
  terminalColumn : ℕ := 0
  terminalColor : BitVec 8 := 0
  termFg : ℕ := 0xAAAAAA
  termBg : ℕ := 0x000000

namespace Terminal

/-- The character byte of the cell in row `y` and column `x` of the text buffer. -/
def charAt (t : Terminal) (y x : ℕ) : BitVec 8 := (t.vga (y * vgaW + x)).setWidth 8

/-- `VGA_TEXT_BUFFER[i] = cell`. -/
def setCell (t : Terminal) (i : ℕ) (cell : BitVec 16) : Terminal :=
  { t with vga := fun j => if j = i then cell else t.vga j }

/-- `terminal_column = 0; terminal_row++;` -/
def nextLine (t : Terminal) : Terminal :=
  { t with terminalColumn := 0, terminalRow := t.terminalRow + 1 }

/-- `scroll_vga`: every row is copied to the one above it, and the last is blanked. -/
def scrollVga (t : Terminal) : Terminal :=
  let t := (List.range' 1 (vgaH - 1)).foldl (fun t y =>
    (List.range vgaW).foldl (fun t x => t.setCell ((y - 1) * vgaW + x) (t.vga (y * vgaW + x))) t) t
  let t := (List.range vgaW).foldl (fun t x => t.setCell ((vgaH - 1) * vgaW + x) vgaBlank) t
  { t with terminalRow := vgaH - 1, terminalColumn := 0 }

/-- `draw_char_fb`. The coordinates are the 32-bit patterns of its `int` parameters. -/
def drawCharFb (t : Terminal) (cx cy : ℕ) (c : BitVec 8) : Terminal :=
  if 2 ^ 31 ≤ cx ∨ 2 ^ 31 ≤ cy then t
  else
    let c := if c.toNat < 32 ∨ 126 < c.toNat then 0x3F else c
    { t with fb := t.fb.drawGlyph cx cy (t.fontData (c.toNat - 32)) t.termFg t.termBg fbScale }

/-- `scroll_fb`: the last row is computed in 32 bits. -/
def scrollFb (t : Terminal) : Terminal :=
  { t with
    fb := t.fb.scrollUp charH
    terminalRow := (t.fb.height / charH + (2 ^ 32 - 1)) % 2 ^ 32
    terminalColumn := 0 }

/-- `clear_terminal`. -/
def clear (t : Terminal) : Terminal :=
  let t : Terminal :=
    if t.fb.ok then { t with fb := t.fb.clear t.termBg }
    else (List.range (vgaW * vgaH)).foldl (fun t i => t.setCell i vgaBlank) t
  { t with terminalRow := 0, terminalColumn := 0 }

/-- `terminal_setcolor`. -/
def setColor (t : Terminal) (color : BitVec 8) : Terminal :=
  { t with
    terminalColor := color
    termFg := vgaPalette.getD (color.toNat % 16) 0
    termBg := vgaPalette.getD (color.toNat / 16 % 16) 0 }

/-- `if ((terminal_row + 1) * CHAR_H > fb_height()) scroll_fb();` -/
def scrollFbIfFull (t : Terminal) : Terminal :=
  if t.fb.height < (t.terminalRow + 1) * charH then t.scrollFb else t

/-- `if (terminal_row == VGA_H) scroll_vga();` -/
def scrollVgaIfFull (t : Terminal) : Terminal :=
  if t.terminalRow = vgaH then t.scrollVga else t

/-- `terminal_putchar` on the framebuffer. -/
def putcharFb (t : Terminal) (c : BitVec 8) : Terminal :=
  if c = newline then t.nextLine.scrollFbIfFull
  else if c = backspace then
    let t : Terminal :=
      if charW ≤ t.terminalColumn then { t with terminalColumn := t.terminalColumn - charW }
      else { t with terminalColumn := 0 }
    t.drawCharFb (t.terminalColumn % 2 ^ 32) (t.terminalRow * charH % 2 ^ 32) space
  else
    let t := t.drawCharFb (t.terminalColumn % 2 ^ 32) (t.terminalRow * charH % 2 ^ 32) c
    let t : Terminal := { t with terminalColumn := t.terminalColumn + charW }
    if t.fb.width < t.terminalColumn + charW then t.nextLine.scrollFbIfFull else t

/-- `terminal_putchar` in text mode. -/
def putcharVga (t : Terminal) (c : BitVec 8) : Terminal :=
  if c = newline then t.nextLine.scrollVgaIfFull
  else if c = backspace then
    let t : Terminal :=
      if 0 < t.terminalColumn then { t with terminalColumn := t.terminalColumn - 1 }
      else if 0 < t.terminalRow then
        { t with terminalRow := t.terminalRow - 1, terminalColumn := vgaW - 1 }
      else t
    t.setCell (t.terminalRow * vgaW + t.terminalColumn) vgaBlank
  else
    let t := t.setCell (t.terminalRow * vgaW + t.terminalColumn) (vgaEntry c t.terminalColor)
    let t : Terminal := { t with terminalColumn := t.terminalColumn + 1 }
    if t.terminalColumn = vgaW then t.nextLine.scrollVgaIfFull else t

/-- `terminal_putchar`. -/
def putchar (t : Terminal) (c : BitVec 8) : Terminal :=
  if t.fb.ok then t.putcharFb c else t.putcharVga c

/-- `terminal_write`. -/
def write (t : Terminal) (data : List (BitVec 8)) : Terminal := data.foldl putchar t

/-! ## What `terminal_putchar` touches -/

/-- The indices of the text buffer that `scroll_vga` writes. -/
def scrollVgaWrites : List ℕ :=
  ((List.range' 1 (vgaH - 1)).flatMap fun y => (List.range vgaW).map fun x => (y - 1) * vgaW + x) ++
    (List.range vgaW).map fun x => (vgaH - 1) * vgaW + x

/-- The indices of the text buffer that `terminal_putchar` writes in text mode. -/
def putcharVgaWrites (t : Terminal) (c : BitVec 8) : List ℕ :=
  let scrolled := if t.terminalRow + 1 = vgaH then scrollVgaWrites else []
  if c = newline then scrolled
  else if c = backspace then
    if 0 < t.terminalColumn then [t.terminalRow * vgaW + (t.terminalColumn - 1)]
    else if 0 < t.terminalRow then [(t.terminalRow - 1) * vgaW + (vgaW - 1)]
    else [t.terminalRow * vgaW + t.terminalColumn]
  else
    (t.terminalRow * vgaW + t.terminalColumn) :: if t.terminalColumn + 1 = vgaW then scrolled else []

/-- Where `terminal_putchar` has `draw_char_fb` draw on the framebuffer. -/
def putcharFbDraws (t : Terminal) (c : BitVec 8) : Option (ℕ × ℕ) :=
  if c = newline then none
  else if c = backspace then
    let column := if charW ≤ t.terminalColumn then t.terminalColumn - charW else 0
    some (column % 2 ^ 32, t.terminalRow * charH % 2 ^ 32)
  else some (t.terminalColumn % 2 ^ 32, t.terminalRow * charH % 2 ^ 32)

@[simp] theorem write_nil (t : Terminal) : t.write [] = t := rfl

@[simp] theorem write_cons (t : Terminal) (c : BitVec 8) (data : List (BitVec 8)) :
    t.write (c :: data) = (t.putchar c).write data := rfl

end Terminal

end RaryOS.Model
