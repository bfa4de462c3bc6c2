import RaryOS.Core.Page
import RaryOS.Soundness.TerminalText

/-! # The text screen is a window on a page

Any text, with backspaces, goes on a page without an end, and the text buffer always holds the 25 lines of it
that are in the window. A backspace goes back over the left edge, but not to a line that has left the screen.
-/

namespace RaryOS.Soundness

open RaryOS.Core RaryOS.Model

/-- The text mode: 80 by 25 cells, each with its colour. -/
def vgaStyle (color : BitVec 8) : PageStyle (BitVec 8) (BitVec 16) where
  width := vgaW
  height := vgaH
  newline := newline
  backspace := backspace
  glyph c := vgaEntry c color
  erased := vgaBlank
  wraps := true

/-- A page with nothing on it. -/
def blankPage : Page (BitVec 16) := { cell := fun _ _ => vgaBlank }

/-- The text buffer holds the window of the page, with the cursor at the page's. -/
structure ShowsPage (color : BitVec 8) (t : Terminal) (p : Page (BitVec 16)) : Prop where
  textMode : t.fb.ok = false
  painted : t.terminalColor = color
  inside : p.Inside (vgaStyle color)
  row : p.line = p.top + t.terminalRow
  column : p.column = t.terminalColumn
  cells : ∀ y < vgaH, ∀ x < vgaW, t.vga (y * vgaW + x) = p.cell (p.top + y) x
  fresh : ∀ line x, p.top + vgaH ≤ line → p.cell line x = vgaBlank

namespace ShowsPage

variable {color : BitVec 8} {t : Terminal} {p : Page (BitVec 16)}

theorem clear (textMode : t.fb.ok = false) : ShowsPage t.terminalColor t.clear blankPage := by
  rw [Terminal.clear_eq textMode]
  refine ⟨textMode, rfl, ⟨le_rfl, vgaH_pos, vgaW_pos⟩, rfl, rfl, fun y row x column => ?_, fun _ _ _ => rfl⟩
  have inside : y * vgaW + x < vgaW * vgaH := by
    simp only [vgaW, vgaH] at *
    omega
  exact if_pos inside

theorem row_lt (shows_ : ShowsPage color t p) : t.terminalRow < vgaH := by
  have below : p.line < p.top + vgaH := shows_.inside.below
  have row := shows_.row
  omega

theorem column_lt (shows_ : ShowsPage color t p) : t.terminalColumn < vgaW := shows_.column ▸ shows_.inside.column

/-- A cell stored at the cursor. -/
theorem set (shows_ : ShowsPage color t p) (cell : BitVec 16) :
    ShowsPage color (t.setCell (t.terminalRow * vgaW + t.terminalColumn) cell) (p.set cell) := by
  have column := shows_.column_lt
  have row := shows_.row
  have place := shows_.column
  refine ⟨shows_.textMode, shows_.painted, shows_.inside.set _, row, place, fun y _ x inside => ?_,
    fun line x behind => ?_⟩
  · rw [Terminal.setCell]
    simp only [Page.set]
    rw [shows_.cells y ‹_› x inside]
    apply if_congr _ rfl rfl
    simp only [vgaW] at *
    omega
  · have below : p.line < p.top + vgaH := shows_.inside.below
    have other : p.top + vgaH ≤ line := behind
    simp only [Page.set]
    rw [if_neg (by omega)]
    exact shows_.fresh line x behind

/-- The next line, after a scroll when the cursor was in the last one. -/
theorem nextLine (shows_ : ShowsPage color t p) :
    ShowsPage color t.nextLine.scrollVgaIfFull (p.nextLine (vgaStyle color)) := by
  have inRow := shows_.row_lt
  have row := shows_.row
  have inside := shows_.inside.nextLine
  rw [Terminal.scrollVgaIfFull]
  by_cases last : t.terminalRow + 1 = vgaH
  · have scrolls : p.top + vgaH ≤ p.line + 1 := by omega
    have moved : (p.nextLine (vgaStyle color)).top = p.top + 1 := if_pos scrolls
    rw [if_pos (show t.nextLine.terminalRow = vgaH from last), Terminal.scrollVga_eq]
    refine ⟨shows_.textMode, shows_.painted, inside, ?_, rfl, fun y upper x column => ?_, fun line x behind => ?_⟩
    · rw [moved]
      change p.line + 1 = p.top + 1 + (vgaH - 1)
      omega
    · rw [moved]
      simp only [Terminal.nextLine, Page.nextLine]
      rcases Nat.lt_or_ge (y + 1) vgaH with above | bottom
      · rw [show p.top + 1 + y = p.top + (y + 1) by omega, ← shows_.cells (y + 1) above x column]
        have place : ¬((vgaH - 1) * vgaW ≤ y * vgaW + x ∧ y * vgaW + x < vgaH * vgaW) ∧
            y * vgaW + x < (vgaH - 1) * vgaW ∧ y * vgaW + x + vgaW = (y + 1) * vgaW + x := by
          simp only [vgaW, vgaH] at *
          omega
        rw [if_neg place.1, if_pos place.2.1, place.2.2]
      · have place : (vgaH - 1) * vgaW ≤ y * vgaW + x ∧ y * vgaW + x < vgaH * vgaW := by
          simp only [vgaW, vgaH] at *
          omega
        rw [if_pos place, shows_.fresh _ _ (by omega)]
    · rw [moved] at behind
      exact shows_.fresh line x (by omega)
  · have stays : (p.nextLine (vgaStyle color)).top = p.top :=
      if_neg (show ¬p.top + vgaH ≤ p.line + 1 by omega)
    rw [if_neg (show ¬t.nextLine.terminalRow = vgaH from last)]
    refine ⟨shows_.textMode, shows_.painted, inside, ?_, rfl, fun y upper x column => ?_, fun line x behind => ?_⟩
    · rw [stays]
      change p.line + 1 = p.top + (t.terminalRow + 1)
      omega
    · rw [stays]
      exact shows_.cells y upper x column
    · rw [stays] at behind
      exact shows_.fresh line x behind

/-- The next cell. -/
theorem advance (shows_ : ShowsPage color t p) :
    ShowsPage color
      (if t.terminalColumn + 1 = vgaW then { t with terminalColumn := t.terminalColumn + 1 }.nextLine.scrollVgaIfFull
        else { t with terminalColumn := t.terminalColumn + 1 })
      (p.advance (vgaStyle color)) := by
  have inside := shows_.inside.advance
  rw [Page.advance] at inside ⊢
  rw [shows_.column] at inside ⊢
  by_cases full : t.terminalColumn + 1 = vgaW
  · rw [if_pos full, if_pos (show t.terminalColumn + 1 = (vgaStyle color).width from full)]
    exact shows_.nextLine
  · rw [if_neg full]
    rw [if_neg (show ¬t.terminalColumn + 1 = (vgaStyle color).width from full)] at inside ⊢
    exact ⟨shows_.textMode, shows_.painted, inside, shows_.row, rfl, shows_.cells, shows_.fresh⟩

/-- The cell before, or the cell of the cursor when there is none on the screen. -/
theorem back (shows_ : ShowsPage color t p) :
    ShowsPage color
      (if 0 < t.terminalColumn then { t with terminalColumn := t.terminalColumn - 1 }
        else if 0 < t.terminalRow then { t with terminalRow := t.terminalRow - 1, terminalColumn := vgaW - 1 }
        else t)
      (p.back (vgaStyle color)) := by
  have inside := shows_.inside.back
  have row := shows_.row
  rw [Page.back] at inside ⊢
  rw [shows_.column] at inside ⊢
  split
  · next behind =>
    rw [if_pos behind] at inside
    exact ⟨shows_.textMode, shows_.painted, inside, row, rfl, shows_.cells, shows_.fresh⟩
  · next edge =>
    rw [if_neg edge] at inside
    split
    · next below =>
      have upper : (vgaStyle color).wraps = true ∧ p.top < p.line := ⟨rfl, by omega⟩
      rw [if_pos upper] at inside ⊢
      refine ⟨shows_.textMode, shows_.painted, inside, ?_, rfl, shows_.cells, shows_.fresh⟩
      simp only
      omega
    · next first =>
      rw [if_neg (by omega)]
      exact shows_

theorem putchar (shows_ : ShowsPage color t p) (c : BitVec 8) :
    ShowsPage color (t.putchar c) (p.type (vgaStyle color) c) := by
  rw [Shows.textMode_putchar shows_.textMode, Terminal.putcharVga, Page.type]
  by_cases breaks : c = newline
  · rw [if_pos breaks, if_pos (show c = (vgaStyle color).newline from breaks)]
    exact shows_.nextLine
  rw [if_neg breaks, if_neg (show ¬c = (vgaStyle color).newline from breaks)]
  by_cases erases : c = backspace
  · rw [if_pos erases, if_pos (show c = (vgaStyle color).backspace from erases)]
    exact shows_.back.set vgaBlank
  · rw [if_neg erases, if_neg (show ¬c = (vgaStyle color).backspace from erases), shows_.painted]
    exact (shows_.set (vgaEntry c color)).advance

theorem write (shows_ : ShowsPage color t p) (text : List (BitVec 8)) :
    ShowsPage color (t.write text) (p.write (vgaStyle color) text) := by
  induction text generalizing t p with
  | nil => exact shows_
  | cons c rest ih => exact ih (shows_.putchar c)

end ShowsPage

/-- After `clear_terminal` and any text, the text buffer holds the window of the page that the text is on. -/
theorem vga_shows_page {t : Terminal} (textMode : t.fb.ok = false) (text : List (BitVec 8)) :
    ShowsPage t.terminalColor (t.clear.write text) (blankPage.write (vgaStyle t.terminalColor) text) :=
  (ShowsPage.clear textMode).write text

/-- The terminal in light grey on black, as `terminal_initialize` leaves it. -/
def sampleGreyTerminal : Terminal := { sampleTerminal with terminalColor := 7 }

/-- A backspace at the left edge goes back to the end of the line above. -/
theorem vga_shows_page_sample :
    let p := blankPage.write (vgaStyle 7) [0x41, newline, backspace, 0x42]
    p.line = 1 ∧ p.column = 0 ∧ p.cell 0 79 = vgaEntry 0x42 7 ∧
      ShowsPage 7 (sampleGreyTerminal.clear.write [0x41, newline, backspace, 0x42]) p :=
  ⟨by decide, by decide, by decide, @vga_shows_page sampleGreyTerminal rfl _⟩

end RaryOS.Soundness
