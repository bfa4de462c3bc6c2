import RaryOS.Soundness.Framebuffer
import RaryOS.Soundness.TerminalBounds
import RaryOS.Soundness.TerminalCursor
import RaryOS.Soundness.TerminalPage

/-! # The framebuffer is a window on a page

On a framebuffer the cells are pictures of 16 by 16 pixels, as many as fit into the width and the height. Every
pixel of a cell is the one of its picture, and the pixels behind the last column and below the last row stay
black: scrolling moves them up, but only into the row that is blanked. A screen of exactly one row is left out,
because `fb_scroll_up` does nothing when it is asked to move all rows away. With 80 by 25 characters it is the
page of the text mode, cell by cell.
-/

namespace RaryOS.Soundness

open RaryOS.Core RaryOS.Model

/-! ## Pixels after drawing -/

section Pixels

variable {fb : Framebuffer} {i j : ℕ}

/-- A glyph inside the framebuffer changes the pixels of its square only. -/
theorem drawGlyph_pixel {cx cy scale : ℕ} {glyph : ℕ → BitVec 8} {fg bg : ℕ} (fits : fb.Fits)
    (aligned : fb.pitch % 4 = 0) (ok : fb.ok = true) (inside : SquareInside fb cx cy scale) (column : i < fb.width) :
    (fb.drawGlyph cx cy glyph fg bg scale).pixel i j =
      if cx ≤ i ∧ i < cx + 8 * scale ∧ cy ≤ j ∧ j < cy + 8 * scale then
        (if (glyph ((j - cy) / scale)).getLsbD (7 - (i - cx) / scale) then fg else bg) % 2 ^ 32
      else fb.pixel i j := by
  have onScreen : ∀ p ∈ glyphPixels cx cy glyph fg bg scale, p.1 < fb.width := by
    intro p member
    obtain ⟨x, here, y, _, rfl⟩ := mem_glyphPixels member
    have right := inside.1
    simp only
    omega
  rw [Framebuffer.drawGlyph_eq, drawGlyphStores_of_inside fits aligned ok inside]
  change (fb.mem.storeAll 4 _).load32 (fb.pixelAddress i j) = _
  split
  · next square =>
    apply Memory.load_storeAll_of_mem
    · apply List.mem_map.mpr
      refine ⟨(i, j, if (glyph ((j - cy) / scale)).getLsbD (7 - (i - cx) / scale) then fg else bg), ?_, rfl⟩
      simp only [glyphPixels, List.mem_flatMap, List.mem_range, List.mem_map]
      refine ⟨j - cy, by omega, i - cx, by omega, ?_⟩
      rw [Nat.add_sub_cancel' square.1, Nat.add_sub_cancel' square.2.2.1]
    · intro s member
      obtain ⟨p, drawn, rfl⟩ := List.mem_map.mp member
      have inScreen := onScreen p drawn
      obtain ⟨x, _, y, _, rfl⟩ := mem_glyphPixels drawn
      by_cases same : i = cx + x ∧ j = cy + y
      · left
        rw [same.1, same.2, Nat.add_sub_cancel_left, Nat.add_sub_cancel_left]
        rfl
      · exact Or.inr (fits.pixels_apart column inScreen same)
  · next outside =>
    apply Memory.load_storeAll_of_apart
    intro s member
    obtain ⟨p, drawn, rfl⟩ := List.mem_map.mp member
    have inScreen := onScreen p drawn
    obtain ⟨x, _, y, _, rfl⟩ := mem_glyphPixels drawn
    apply fits.pixels_apart column inScreen
    simp only
    omega

/-- Scrolling changes the memory only. -/
theorem exists_scrollUp (fb : Framebuffer) (pixels : ℕ) : ∃ mem, fb.scrollUp pixels = { fb with mem := mem } := by
  rw [Framebuffer.scrollUp]
  split
  · exact ⟨fb.mem, rfl⟩
  · simp only [Framebuffer.fillRect_eq]
    exact ⟨_, rfl⟩

/-- Scrolling moves every pixel up, and black pixels come in from below. -/
theorem scrollUp_pixel {pixels : ℕ} (fits : fb.Fits) (small : pixels < fb.height) (column : i < fb.width)
    (row : j < fb.height) :
    (fb.scrollUp pixels).pixel i j = if j + pixels < fb.height then fb.pixel i (j + pixels) else 0 := by
  have fits' : (movedUp fb pixels).Fits := movedUp_fits fits
  have wide := fits.row
  have pitch := fits.pitch
  have height := fits.height
  rw [scrollUp_eq fits small, fits'.fillRect_pixel (by omega) (by omega) 0 column]
  by_cases moved : j + pixels < fb.height
  · rw [if_pos moved, if_neg (by rintro ⟨_, _, below, _⟩; omega), movedUp_pixel fits column moved]
  · rw [if_neg moved, if_pos]
    · rfl
    · exact ⟨Nat.zero_le i, by simp only [movedUp]; omega, by omega, by simp only [movedUp]; omega⟩

end Pixels

/-! ## The page -/

/-- A picture of a cell, by row and column. -/
abbrev Picture := ℕ → ℕ → ℕ

/-- The glyph of a character: `?` when there is none. -/
def glyphIndex (c : BitVec 8) : ℕ := (if c.toNat < 32 ∨ 126 < c.toNat then (0x3F : BitVec 8) else c).toNat - 32

/-- What `draw_char_fb` draws for a character. -/
def charPicture (t : Terminal) (c : BitVec 8) : Picture := fun y x =>
  (if (t.fontData (glyphIndex c) (y / fbScale)).getLsbD (7 - x / fbScale) then t.termFg else t.termBg) % 2 ^ 32

/-- As many characters as the framebuffer holds. -/
def fbStyle (t : Terminal) : PageStyle (BitVec 8) Picture where
  width := t.fb.width / charW
  height := t.fb.height / charH
  newline := newline
  backspace := backspace
  glyph := charPicture t
  erased := charPicture t space
  wraps := false

/-- A page of black pixels. -/
def blackPage : Page Picture := { cell := fun _ _ _ _ => 0 }

/-- The pixel of the window, and black where there are no cells. -/
def windowPixel (st : PageStyle (BitVec 8) Picture) (p : Page Picture) (y x : ℕ) : ℕ :=
  if y / charH < st.height ∧ x / charW < st.width then
    p.cell (p.top + y / charH) (x / charW) (y % charH) (x % charW)
  else 0

/-- A picture in the cell of the cursor. -/
theorem windowPixel_set {st : PageStyle (BitVec 8) Picture} {p : Page Picture} (inside : p.Inside st)
    (picture : Picture) (y x : ℕ) :
    windowPixel st (p.set picture) y x =
      if p.top + y / charH = p.line ∧ x / charW = p.column then picture (y % charH) (x % charW)
      else windowPixel st p y x := by
  have below := inside.below
  have column := inside.column
  simp only [windowPixel, Page.set]
  by_cases here : p.top + y / charH = p.line ∧ x / charW = p.column
  · rw [if_pos here, if_pos here, if_pos (by omega)]
  · rw [if_neg here, if_neg here]

/-- A framebuffer for characters: its rows fit the pitch, and there is room for more than one row of text. -/
structure TextScreen (fb : Framebuffer) : Prop where
  fits : fb.Fits
  holds : HoldsCharacter fb
  aligned : fb.pitch % 4 = 0
  scrolls : charH < fb.height

/-- Drawing changes no static variable of `fb.c`. -/
theorem TextScreen.of_mem {fb : Framebuffer} (screen : TextScreen fb) (mem : Memory) :
    TextScreen { fb with mem := mem } :=
  ⟨⟨screen.fits.pitch, screen.fits.height, screen.fits.row, screen.fits.size⟩,
    ⟨screen.holds.available, screen.holds.width, screen.holds.height⟩, screen.aligned, screen.scrolls⟩

/-- The framebuffer shows the window of the page, with the cursor at the page's. -/
structure DrawsPage (st : PageStyle (BitVec 8) Picture) (t : Terminal) (p : Page Picture) : Prop where
  screen : TextScreen t.fb
  style : fbStyle t = st
  background : t.termBg = 0
  inside : p.Inside st
  row : p.line = p.top + t.terminalRow
  column : t.terminalColumn = charW * p.column
  pixels : ∀ y < t.fb.height, ∀ x < t.fb.width, t.fb.pixel x y = windowPixel st p y x
  fresh : ∀ line x, p.top + st.height ≤ line → p.cell line x = fun _ _ => 0

namespace DrawsPage

variable {st : PageStyle (BitVec 8) Picture} {t : Terminal} {p : Page Picture}

theorem width (draws : DrawsPage st t p) : st.width = t.fb.width / charW := by rw [← draws.style]; rfl

theorem height (draws : DrawsPage st t p) : st.height = t.fb.height / charH := by rw [← draws.style]; rfl

theorem clear (screen : TextScreen t.fb) (background : t.termBg = 0) :
    DrawsPage (fbStyle t) t.clear blackPage := by
  obtain ⟨wide, widthLt⟩ := screen.holds.width
  obtain ⟨high, heightLt⟩ := screen.holds.height
  have cleared : t.clear = { t with
      fb := { t.fb with mem := t.fb.mem.storeAll 4 (t.fb.fillRectStores 0 0 t.fb.width t.fb.height 0) }
      terminalRow := 0
      terminalColumn := 0 } := by
    simp only [Terminal.clear, screen.holds.available, if_true, Framebuffer.clear, Framebuffer.fillRect_eq,
      background]
  have black : ∀ y < t.fb.height, ∀ x < t.fb.width, t.clear.fb.pixel x y = 0 := by
    intro y row x column
    have filled := screen.fits.fillRect_pixel (x := 0) (y := 0) (w := t.fb.width) (h := t.fb.height) (j := y)
      (by omega) (by omega) 0 column
    rw [if_pos ⟨Nat.zero_le x, by omega, Nat.zero_le y, by omega⟩, Framebuffer.fillRect_eq] at filled
    rw [cleared]
    exact filled
  have positive : 0 < t.fb.height / charH ∧ 0 < t.fb.width / charW :=
    ⟨Nat.div_pos high (by decide), Nat.div_pos wide (by decide)⟩
  rw [cleared] at black ⊢
  refine ⟨screen.of_mem _, rfl, background, ⟨le_rfl, ?_, positive.2⟩, rfl, rfl, fun y row x column => ?_,
    fun _ _ _ => rfl⟩
  · exact (Nat.zero_add _).symm ▸ positive.1
  · rw [black y row x column]
    exact (ite_self 0).symm

/-- The square of the cursor is on the screen. -/
theorem square (draws : DrawsPage st t p) :
    SquareInside t.fb t.terminalColumn (t.terminalRow * charH) fbScale ∧
      t.terminalColumn < 2 ^ 31 ∧ t.terminalRow * charH < 2 ^ 31 := by
  have widthLt := draws.screen.holds.width.2
  have heightLt := draws.screen.holds.height.2
  have below := draws.inside.below
  have right := draws.inside.column
  have row := draws.row
  rw [draws.height] at below
  rw [draws.width] at right
  rw [SquareInside, draws.column]
  simp only [charW, charH, fbScale] at *
  omega

/-- A character drawn at the cursor. -/
theorem set (draws : DrawsPage st t p) (c : BitVec 8) :
    DrawsPage st (t.drawCharFb (t.terminalColumn % 2 ^ 32) (t.terminalRow * charH % 2 ^ 32) c)
      (p.set (charPicture t c)) := by
  obtain ⟨square, left, upper⟩ := draws.square
  have row := draws.row
  have column := draws.column
  have height := draws.height
  have width := draws.width
  have drawn : t.drawCharFb (t.terminalColumn % 2 ^ 32) (t.terminalRow * charH % 2 ^ 32) c = { t with
      fb := t.fb.drawGlyph t.terminalColumn (t.terminalRow * charH) (t.fontData (glyphIndex c)) t.termFg t.termBg
        fbScale } := by
    rw [Nat.mod_eq_of_lt (by omega), Nat.mod_eq_of_lt (by omega), Terminal.drawCharFb, if_neg (by omega)]
    rfl
  have pixel (x y : ℕ) (inWidth : x < t.fb.width) :
      (t.fb.drawGlyph t.terminalColumn (t.terminalRow * charH) (t.fontData (glyphIndex c)) t.termFg t.termBg
        fbScale).pixel x y = _ :=
    drawGlyph_pixel draws.screen.fits draws.screen.aligned draws.screen.holds.available square inWidth
  rw [drawn]
  rw [Framebuffer.drawGlyph_eq] at pixel ⊢
  refine ⟨draws.screen.of_mem _, draws.style, draws.background, draws.inside.set _, row, column,
    fun y inHeight x inWidth => ?_, fun line x behind => ?_⟩
  · have cell : (t.terminalColumn ≤ x ∧ x < t.terminalColumn + 8 * fbScale ∧ t.terminalRow * charH ≤ y ∧
        y < t.terminalRow * charH + 8 * fbScale) ↔ p.top + y / charH = p.line ∧ x / charW = p.column := by
      simp only [charW, charH, fbScale] at *
      omega
    rw [windowPixel_set draws.inside]
    refine (pixel x y inWidth).trans ?_
    rw [draws.pixels y inHeight x inWidth, if_congr cell rfl rfl]
    split
    · next here =>
      have offsets : y - t.terminalRow * charH = y % charH ∧ x - t.terminalColumn = x % charW := by
        simp only [charW, charH, fbScale] at *
        omega
      rw [offsets.1, offsets.2]
      rfl
    · rfl
  · have below := draws.inside.below
    have other : p.top + st.height ≤ line := behind
    simp only [Page.set]
    rw [if_neg (by omega)]
    exact draws.fresh line x behind

/-- Scrolling brings the line behind the window into it, which is black as are the pixels below the last row. -/
theorem scrolled_pixel (draws : DrawsPage st t p) {y x : ℕ} (inHeight : y < t.fb.height) (inWidth : x < t.fb.width) :
    (t.fb.scrollUp charH).pixel x y = windowPixel st { p with top := p.top + 1 } y x := by
  have height := draws.height
  rw [scrollUp_pixel draws.screen.fits draws.screen.scrolls inWidth inHeight]
  have black : ¬y + charH < st.height * charH → windowPixel st { p with top := p.top + 1 } y x = 0 := by
    intro last
    rw [windowPixel]
    split
    · next inside =>
      rw [draws.fresh]
      simp only [charH, fbScale] at *
      omega
    · rfl
  split
  · next moved =>
    rw [draws.pixels _ moved x inWidth]
    have next : (y + charH) / charH = y / charH + 1 ∧ (y + charH) % charH = y % charH := by
      simp only [charH, fbScale]
      omega
    by_cases upper : y / charH + 1 < st.height
    · simp only [windowPixel, next]
      rw [show p.top + (y / charH + 1) = p.top + 1 + y / charH by omega]
      exact if_congr (by omega) rfl rfl
    · rw [black (by simp only [charH, fbScale] at *; omega), windowPixel, next.1, if_neg fun inside => upper inside.1]
  · rw [black]
    simp only [charH, fbScale] at *
    omega

/-- The next line, after a scroll when the cursor was in the last one. -/
theorem nextLine (draws : DrawsPage st t p) : DrawsPage st t.nextLine.scrollFbIfFull (p.nextLine st) := by
  have row := draws.row
  have below := draws.inside.below
  have height := draws.height
  have inside := draws.inside.nextLine
  have heightLt := draws.screen.holds.height.2
  rw [Terminal.scrollFbIfFull]
  by_cases last : p.top + st.height ≤ p.line + 1
  · have moved : p.nextLine st = { p with line := p.line + 1, column := 0, top := p.top + 1 } := by
      rw [Page.nextLine, if_pos last]
    have scrolls : t.nextLine.fb.height < (t.nextLine.terminalRow + 1) * charH := by
      simp only [Terminal.nextLine, charH, fbScale] at *
      omega
    have rows : (t.fb.height / charH + (2 ^ 32 - 1)) % 2 ^ 32 = t.terminalRow := by
      simp only [charH, fbScale] at *
      omega
    have black := fun {y x} => draws.scrolled_pixel (y := y) (x := x)
    obtain ⟨mem, scrolled⟩ := exists_scrollUp t.fb charH
    have after : t.nextLine.scrollFb =
        { t with fb := { t.fb with mem := mem }, terminalRow := t.terminalRow, terminalColumn := 0 } := by
      rw [Terminal.scrollFb, ← scrolled]
      simp only [Terminal.nextLine, rows]
    rw [scrolled] at black
    rw [moved] at inside ⊢
    rw [if_pos scrolls, after]
    refine ⟨draws.screen.of_mem mem, draws.style, draws.background, inside, ?_, rfl,
      fun y inHeight x inWidth => black inHeight inWidth, fun line x behind => draws.fresh line x ?_⟩
    · simp only
      omega
    · simp only at behind
      omega
  · have stays : p.nextLine st = { p with line := p.line + 1, column := 0 } := by
      rw [Page.nextLine, if_neg last]
    have room : ¬t.nextLine.fb.height < (t.nextLine.terminalRow + 1) * charH := by
      simp only [Terminal.nextLine, charH, fbScale] at *
      omega
    rw [stays] at inside ⊢
    rw [if_neg room]
    refine ⟨draws.screen, draws.style, draws.background, inside, ?_, rfl, draws.pixels, draws.fresh⟩
    simp only [Terminal.nextLine]
    omega

/-- The next cell. -/
theorem advance (draws : DrawsPage st t p) :
    DrawsPage st
      (if t.fb.width < t.terminalColumn + charW + charW then
        { t with terminalColumn := t.terminalColumn + charW }.nextLine.scrollFbIfFull
      else { t with terminalColumn := t.terminalColumn + charW })
      (p.advance st) := by
  have width := draws.width
  have column := draws.column
  have inside := draws.inside.advance
  have full : t.fb.width < t.terminalColumn + charW + charW ↔ p.column + 1 = st.width := by
    have right := draws.inside.column
    simp only [charW, fbScale] at *
    omega
  rw [Page.advance] at inside ⊢
  split
  · next ends =>
    rw [if_pos (full.mp ends)]
    exact draws.nextLine
  · next short =>
    rw [if_neg (mt full.mpr short)] at inside ⊢
    refine ⟨draws.screen, draws.style, draws.background, inside, draws.row, ?_, draws.pixels, draws.fresh⟩
    rw [Nat.mul_succ, ← column]

/-- The cell before, or the first of the line. -/
theorem back (draws : DrawsPage st t p) :
    DrawsPage st
      (if charW ≤ t.terminalColumn then { t with terminalColumn := t.terminalColumn - charW }
        else { t with terminalColumn := 0 })
      (p.back st) := by
  have column := draws.column
  have inside := draws.inside.back
  have noWrap : st.wraps = false := by rw [← draws.style]; rfl
  rw [Page.back, noWrap] at inside ⊢
  split
  · next further =>
    have behind : 0 < p.column := by
      simp only [charW, fbScale] at *
      omega
    rw [if_pos behind] at inside ⊢
    refine ⟨draws.screen, draws.style, draws.background, inside, draws.row, ?_, draws.pixels, draws.fresh⟩
    rw [Nat.mul_sub, Nat.mul_one, ← column]
  · next edge =>
    have first : p.column = 0 := by
      simp only [charW, fbScale] at *
      omega
    rw [if_neg (by omega), if_neg fun both => Bool.false_ne_true both.1]
    refine ⟨draws.screen, draws.style, draws.background, draws.inside, draws.row, ?_, draws.pixels, draws.fresh⟩
    rw [first, Nat.mul_zero]

theorem putchar (draws : DrawsPage st t p) (c : BitVec 8) : DrawsPage st (t.putchar c) (p.type st c) := by
  have keys : st.newline = newline ∧ st.backspace = backspace ∧ st.erased = charPicture t space ∧
      st.glyph c = charPicture t c := by
    rw [← draws.style]
    exact ⟨rfl, rfl, rfl, rfl⟩
  rw [Terminal.putchar, draws.screen.holds.available, if_pos rfl, Terminal.putcharFb, Page.type, keys.1, keys.2.1]
  split
  · exact draws.nextLine
  · split
    · rw [keys.2.2.1]
      have drawn := draws.back.set space
      by_cases further : charW ≤ t.terminalColumn
      · simp only [if_pos further] at drawn ⊢
        exact drawn
      · simp only [if_neg further] at drawn ⊢
        exact drawn
    · rw [keys.2.2.2]
      exact (draws.set c).advance

theorem write (draws : DrawsPage st t p) (text : List (BitVec 8)) : DrawsPage st (t.write text) (p.write st text) := by
  induction text generalizing t p with
  | nil => exact draws
  | cons c rest ih => exact ih (draws.putchar c)

end DrawsPage

/-- After `clear_terminal` and any text, every pixel of a framebuffer with room for more than one row of text is
that of the page that the text is on. -/
theorem fb_draws_page {t : Terminal} (screen : TextScreen t.fb) (background : t.termBg = 0)
    (text : List (BitVec 8)) : DrawsPage (fbStyle t) (t.clear.write text) (blackPage.write (fbStyle t) text) :=
  (DrawsPage.clear screen background).write text

theorem sampleFbTerminal_screen : TextScreen sampleFbTerminal.fb :=
  ⟨by constructor <;> decide, ⟨rfl, by decide, by decide⟩, rfl, by decide⟩

/-- The framebuffer stays in the row at a backspace at the left edge. -/
theorem fb_draws_page_sample :
    let p := blackPage.write (fbStyle sampleFbTerminal) [0x41, newline, backspace, 0x42]
    p.line = 1 ∧ p.column = 1 ∧
      DrawsPage (fbStyle sampleFbTerminal) (sampleFbTerminal.clear.write [0x41, newline, backspace, 0x42]) p :=
  ⟨by decide, by decide, fb_draws_page sampleFbTerminal_screen rfl _⟩

/-! ## The two back ends -/

section BackEnds

variable {f v : Terminal}

/-- What a cell of the text buffer looks like on the framebuffer. -/
def cellPicture (f : Terminal) (cell : BitVec 16) : Picture := charPicture f (cell.setWidth 8)

/-- The framebuffer has the looks of its own for each cell, and does not go back over the left edge. -/
theorem HoldsGrid.sameText (grid : HoldsGrid f.fb) (color : BitVec 8) :
    Page.SameText (cellPicture f) (vgaStyle color) (fbStyle f) where
  width := grid.width
  height := grid.height
  newline := rfl
  backspace := rfl
  glyph c _ _ := congrArg (charPicture f) (vgaEntry_char c color).symm
  erased := congrArg (charPicture f) (vgaEntry_char space 0x07).symm

theorem ShowsPage.atEdge_iff {color : BitVec 8} {p : Page (BitVec 16)} (shows_ : ShowsPage color v p) :
    p.AtEdge ↔ AtLeftEdge v := by
  have row := shows_.row
  rw [Page.AtEdge, AtLeftEdge, shows_.column]
  exact and_congr_right fun _ => by omega

/-- A blank glyph on black is black. -/
theorem blankPage_map (background : f.termBg = 0) (blank : ∀ row, f.fontData 0 row = 0) :
    blankPage.map (cellPicture f) = blackPage := by
  have black : cellPicture f vgaBlank = fun _ _ => 0 := by
    funext y x
    rw [cellPicture, vgaBlank, vgaEntry_char]
    change (if (f.fontData 0 (y / fbScale)).getLsbD _ then f.termFg else f.termBg) % 2 ^ 32 = 0
    have unset : (0 : BitVec 8).getLsbD (7 - x / fbScale) = false := BitVec.getLsbD_zero
    rw [blank, background, unset, if_neg Bool.false_ne_true, Nat.zero_mod]
  simp only [Page.map, blankPage, black, blackPage]

/-- After `clear_terminal` and a text without a backspace at the left edge, a framebuffer of 80 by 25 characters
shows in each row and column the character that the text mode has there. -/
theorem back_ends_alike (screen : TextScreen f.fb) (grid : HoldsGrid f.fb) (background : f.termBg = 0)
    (blank : ∀ row, f.fontData 0 row = 0) (textMode : v.fb.ok = false) {text : List (BitVec 8)}
    (away : ∀ done, done ++ [backspace] <+: text → ¬AtLeftEdge (v.clear.write done)) {row column y x : ℕ}
    (inHeight : row < vgaH) (inWidth : column < vgaW) (below : y < charH) (right : x < charW) :
    (f.clear.write text).fb.pixel (column * charW + x) (row * charH + y) =
      charPicture f ((v.clear.write text).charAt row column) y x := by
  have draws := (DrawsPage.clear screen background).write text
  have shows_ := (ShowsPage.clear textMode).write text
  have clean : ∀ done, done ++ [backspace] <+: text →
      ¬(blankPage.write (vgaStyle v.terminalColor) done).AtEdge := by
    intro done before
    rw [((ShowsPage.clear textMode).write done).atEdge_iff]
    exact away done before
  have same : (blankPage.write (vgaStyle v.terminalColor) text).map (cellPicture f) = _ :=
    (grid.sameText v.terminalColor).map_write (Or.inr clean)
  rw [blankPage_map background blank] at same
  have width : (fbStyle f).width = vgaW := grid.width
  have height : (fbStyle f).height = vgaH := grid.height
  have row_of : (row * charH + y) / charH = row ∧ (row * charH + y) % charH = y := by
    simp only [charH, fbScale] at *
    omega
  have column_of : (column * charW + x) / charW = column ∧ (column * charW + x) % charW = x := by
    simp only [charW, fbScale] at *
    omega
  have onScreen : row * charH + y < (f.clear.write text).fb.height ∧
      column * charW + x < (f.clear.write text).fb.width := by
    have wide := draws.width
    have high := draws.height
    simp only [charW, charH, fbScale] at *
    omega
  rw [draws.pixels _ onScreen.1 _ onScreen.2, windowPixel, row_of.1, row_of.2, column_of.1, column_of.2, width, height,
    if_pos ⟨inHeight, inWidth⟩, ← same, Terminal.charAt, shows_.cells row inHeight column inWidth]
  rfl

theorem back_ends_alike_sample :
    (sampleFbTerminal.clear.write [0x41, newline]).fb.pixel (1 * charW + 3) (0 * charH + 5) =
      charPicture sampleFbTerminal ((sampleGreyTerminal.clear.write [0x41, newline]).charAt 0 1) 5 3 := by
  have away : ∀ done, done ++ [backspace] <+: [0x41, newline] →
      ¬AtLeftEdge (sampleGreyTerminal.clear.write done) := by
    intro done before
    have typed : backspace ∈ [0x41, newline] :=
      before.mem (List.mem_append_right done (List.mem_singleton.mpr rfl))
    exact absurd typed (by decide)
  exact back_ends_alike sampleFbTerminal_screen sampleFbTerminal_grid rfl (fun _ => rfl) rfl away vgaH_pos
    (by decide) (by decide) (by decide)

end BackEnds

end RaryOS.Soundness
