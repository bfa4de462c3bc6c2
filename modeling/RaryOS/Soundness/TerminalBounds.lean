import RaryOS.Soundness.Glyphs
import RaryOS.Soundness.TerminalText

/-! # The cursor stays on the screen

In text mode the cursor is always in one of the 25 rows and 80 columns. On a framebuffer of at least one
character, the square at the cursor is always inside, also when width and height are not multiples of 16:
the test for the next line is made in pixels, and scrolling goes back to the last row that fits.
-/

namespace RaryOS.Soundness

open RaryOS.Core RaryOS.Model

/-- The cursor is in the text buffer. -/
structure InTextBuffer (t : Terminal) : Prop where
  textMode : t.fb.ok = false
  row : t.terminalRow < vgaH
  column : t.terminalColumn < vgaW

/-- A framebuffer with room for a character, and with coordinates that are positive as `int`. -/
structure HoldsCharacter (fb : Framebuffer) : Prop where
  available : fb.ok = true
  width : charW ≤ fb.width ∧ fb.width < 2 ^ 31
  height : charH ≤ fb.height ∧ fb.height < 2 ^ 31

/-- The square at the cursor is in the framebuffer. -/
structure InFramebuffer (t : Terminal) : Prop where
  holds : HoldsCharacter t.fb
  cell : SquareInside t.fb t.terminalColumn (t.terminalRow * charH) fbScale

/-- A character at `(cx, cy)` passes the tests of `draw_char_fb` and of `fb_draw_glyph`. -/
structure DrawnAt (fb : Framebuffer) (cx cy : ℕ) : Prop where
  positive : cx < 2 ^ 31 ∧ cy < 2 ^ 31
  inside : SquareInside fb cx cy fbScale
  passes : fb.ok = true ∧ (cx + 8 * fbScale) % 2 ^ 32 ≤ fb.width ∧ (cy + 8 * fbScale) % 2 ^ 32 ≤ fb.height

/-! ## Text mode -/

section Text

variable {t : Terminal}

/-- Scrolling writes the whole text buffer. -/
theorem mem_scrollVgaWrites {i : ℕ} : i ∈ Terminal.scrollVgaWrites ↔ i < vgaW * vgaH := by
  simp only [Terminal.scrollVgaWrites, List.mem_append, List.mem_flatMap, List.mem_map, List.mem_range,
    List.mem_range'_1, vgaW, vgaH]
  constructor
  · rintro (⟨y, row, x, column, rfl⟩ | ⟨x, column, rfl⟩) <;> omega
  · intro inside
    rcases Nat.lt_or_ge i 1920 with upper | last
    · exact Or.inl ⟨i / 80 + 1, by omega, i % 80, by omega, by omega⟩
    · exact Or.inr ⟨i - 1920, by omega, by omega⟩

theorem InTextBuffer.writes_lt (inside : InTextBuffer t) (c : BitVec 8) :
    ∀ i ∈ t.putcharVgaWrites c, i < vgaW * vgaH := by
  have row := inside.row
  have column := inside.column
  have scrolled : ∀ i ∈ (if t.terminalRow + 1 = vgaH then Terminal.scrollVgaWrites else []), i < vgaW * vgaH := by
    intro i member
    split at member
    · exact mem_scrollVgaWrites.mp member
    · cases member
  intro i member
  rw [Terminal.putcharVgaWrites] at member
  split at member
  · exact scrolled i member
  · split at member
    · simp only [vgaW, vgaH] at *
      split_ifs at member <;> rw [List.mem_singleton] at member <;> omega
    · rcases List.mem_cons.mp member with rfl | wrapped
      · simp only [vgaW, vgaH] at *
        omega
      · split at wrapped
        · exact scrolled i wrapped
        · cases wrapped

theorem InTextBuffer.clear (textMode : t.fb.ok = false) : InTextBuffer t.clear := by
  rw [Terminal.clear_eq textMode]
  exact ⟨textMode, vgaH_pos, vgaW_pos⟩

/-- The next line is on the screen, after a scroll if need be. -/
theorem InTextBuffer.nextLine (textMode : t.fb.ok = false) (row : t.terminalRow < vgaH) :
    InTextBuffer t.nextLine.scrollVgaIfFull := by
  rw [Terminal.scrollVgaIfFull]
  split
  · rw [Terminal.scrollVga_eq]
    exact ⟨textMode, Nat.sub_lt vgaH_pos Nat.one_pos, vgaW_pos⟩
  · next stays => exact ⟨textMode, Nat.lt_of_le_of_ne row stays, vgaW_pos⟩

theorem InTextBuffer.putchar (inside : InTextBuffer t) (c : BitVec 8) : InTextBuffer (t.putchar c) := by
  obtain ⟨textMode, row, column⟩ := inside
  rw [Shows.textMode_putchar textMode]
  by_cases breaks : c = newline
  · rw [Terminal.putcharVga, if_pos breaks]
    exact .nextLine textMode row
  by_cases erases : c = backspace
  · rw [Terminal.putcharVga, if_neg breaks, if_pos erases]
    split_ifs
    · exact ⟨textMode, row, Nat.lt_of_le_of_lt (Nat.sub_le _ _) column⟩
    · exact ⟨textMode, Nat.lt_of_le_of_lt (Nat.sub_le _ _) row, Nat.sub_lt vgaW_pos Nat.one_pos⟩
    · exact ⟨textMode, row, column⟩
  · rw [Terminal.putcharVga_of_plain t breaks erases]
    split
    · exact .nextLine (t := t.placed c) textMode row
    · next short => exact ⟨textMode, row, Nat.lt_of_le_of_ne column short⟩

theorem nextLine_vga {i : ℕ}
    (other : i ∉ if t.terminalRow + 1 = vgaH then Terminal.scrollVgaWrites else []) :
    t.nextLine.scrollVgaIfFull.vga i = t.vga i := by
  rw [Terminal.scrollVgaIfFull]
  split
  · next full =>
    rw [if_pos (show t.terminalRow + 1 = vgaH from full), mem_scrollVgaWrites] at other
    have below : ¬((vgaH - 1) * vgaW ≤ i ∧ i < vgaH * vgaW) ∧ ¬i < (vgaH - 1) * vgaW := by
      simp only [vgaW, vgaH] at *
      omega
    rw [Terminal.scrollVga_eq]
    simp only [if_neg below.1, if_neg below.2]
    rfl
  · rfl

/-- The text buffer changes at the listed indices only. -/
theorem putcharVga_vga {c : BitVec 8} {i : ℕ} (other : i ∉ t.putcharVgaWrites c) :
    (t.putcharVga c).vga i = t.vga i := by
  rw [Terminal.putcharVgaWrites] at other
  split at other
  · next breaks =>
    rw [Terminal.putcharVga, if_pos breaks]
    exact nextLine_vga other
  · next visible =>
    split at other
    · next erases =>
      rw [Terminal.putcharVga, if_neg visible, if_pos erases]
      split_ifs at other ⊢ <;> exact if_neg fun same => other (List.mem_singleton.mpr same)
    · next plain =>
      rw [List.mem_cons, not_or] at other
      have placed : (t.placed c).vga i = t.vga i := if_neg other.1
      rw [Terminal.putcharVga_of_plain t visible plain]
      split
      · next full =>
        rw [if_pos full] at other
        exact (nextLine_vga (t := t.placed c) other.2).trans placed
      · exact placed

end Text

/-! ## The framebuffer -/

section Pixels

variable {t : Terminal}

theorem HoldsCharacter.of_same {fb fb' : Framebuffer} (same : fb.SameScreen fb') (holds : HoldsCharacter fb) :
    HoldsCharacter fb' :=
  ⟨same.ok.trans holds.available, same.width ▸ holds.width, same.height ▸ holds.height⟩

/-- Another picture on the same screen. -/
theorem SquareInside.of_same {fb fb' : Framebuffer} (same : fb.SameScreen fb') {cx cy scale : ℕ}
    (inside : SquareInside fb cx cy scale) : SquareInside fb' cx cy scale := by
  rw [SquareInside, same.width, same.height]
  exact inside

theorem InFramebuffer.clear (holds : HoldsCharacter t.fb) : InFramebuffer t.clear := by
  have same : t.fb.SameScreen t.clear.fb := by
    simp only [Terminal.clear, holds.available, if_true, Framebuffer.clear]
    exact Framebuffer.fillRect_same ..
  refine ⟨holds.of_same same, SquareInside.of_same same ⟨?_, ?_⟩⟩
  · exact (Nat.zero_add _).trans_le holds.width.1
  · exact (Nat.zero_add _).trans_le holds.height.1

/-- The next line is inside: scrolling goes back to the last row that fits. -/
theorem InFramebuffer.nextLine (holds : HoldsCharacter t.fb) : InFramebuffer t.nextLine.scrollFbIfFull := by
  obtain ⟨wide, widthLt⟩ := holds.width
  obtain ⟨high, heightLt⟩ := holds.height
  rw [Terminal.scrollFbIfFull]
  split
  · have same : t.fb.SameScreen t.nextLine.scrollFb.fb := Framebuffer.scrollUp_same ..
    refine ⟨holds.of_same same, SquareInside.of_same same ⟨?_, ?_⟩⟩
    · exact (Nat.zero_add _).trans_le wide
    · simp only [Terminal.scrollFb, Terminal.nextLine, charH, fbScale] at *
      omega
  · next fits =>
    refine ⟨holds, ?_, ?_⟩
    · exact (Nat.zero_add _).trans_le wide
    · simp only [Terminal.nextLine, charH, fbScale] at *
      omega

theorem InFramebuffer.putchar (inside : InFramebuffer t) (c : BitVec 8) : InFramebuffer (t.putchar c) := by
  obtain ⟨holds, right, bottom⟩ := inside
  rw [Terminal.putchar, holds.available, if_pos rfl, Terminal.putcharFb]
  split
  · exact .nextLine holds
  · split
    · -- The column goes left by a character, or to the edge.
      have erased (column : ℕ) (left : column ≤ t.terminalColumn) :
          InFramebuffer (({ t with terminalColumn := column } : Terminal).drawCharFb (column % 2 ^ 32)
            (t.terminalRow * charH % 2 ^ 32) space) := by
        have same := Terminal.drawCharFb_same { t with terminalColumn := column } (column % 2 ^ 32)
          (t.terminalRow * charH % 2 ^ 32) space
        obtain ⟨row, kept⟩ := Terminal.drawCharFb_cursor { t with terminalColumn := column } (column % 2 ^ 32)
          (t.terminalRow * charH % 2 ^ 32) space
        refine ⟨holds.of_same same, ?_⟩
        rw [row, kept]
        exact SquareInside.of_same same ⟨by simp only; omega, bottom⟩
      split
      · exact erased (t.terminalColumn - charW) (Nat.sub_le _ _)
      · exact erased 0 (Nat.zero_le _)
    · have same := Terminal.drawCharFb_same t (t.terminalColumn % 2 ^ 32) (t.terminalRow * charH % 2 ^ 32) c
      obtain ⟨row, kept⟩ := Terminal.drawCharFb_cursor t (t.terminalColumn % 2 ^ 32)
        (t.terminalRow * charH % 2 ^ 32) c
      simp only
      split
      · exact .nextLine (holds.of_same same)
      · next room =>
        refine ⟨holds.of_same same, SquareInside.of_same same ⟨?_, ?_⟩⟩
        · rw [same.width] at room
          simp only [charW] at room ⊢
          omega
        · rw [row]
          exact bottom

/-- A character that is drawn passes both tests. -/
theorem InFramebuffer.drawnAt (inside : InFramebuffer t) {c : BitVec 8} {cx cy : ℕ}
    (draws : t.putcharFbDraws c = some (cx, cy)) : DrawnAt t.fb cx cy := by
  obtain ⟨holds, right, bottom⟩ := inside
  have width := holds.width.2
  have height := holds.height.2
  have wide := holds.width.1
  have drawn (column : ℕ) (left : column ≤ t.terminalColumn) (x : column % 2 ^ 32 = cx)
      (y : t.terminalRow * charH % 2 ^ 32 = cy) : DrawnAt t.fb cx cy := by
    simp only [charW, fbScale] at *
    rw [Nat.mod_eq_of_lt (by omega)] at x y
    subst x y
    exact ⟨by omega, ⟨by simp only [fbScale]; omega, bottom⟩, holds.available, by simp only [fbScale]; omega,
      by simp only [fbScale]; omega⟩
  rw [Terminal.putcharFbDraws] at draws
  split at draws
  · cases draws
  · split at draws
    · obtain ⟨x, y⟩ := Prod.mk.inj (Option.some.inj draws)
      refine drawn _ ?_ x y
      split <;> omega
    · obtain ⟨x, y⟩ := Prod.mk.inj (Option.some.inj draws)
      exact drawn _ le_rfl x y

/-- The framebuffer after a character is the one that `draw_char_fb` leaves there, perhaps scrolled. -/
theorem putcharFb_draws {c : BitVec 8} {cx cy : ℕ} (draws : t.putcharFbDraws c = some (cx, cy)) :
    ∃ (s : Terminal) (shown : BitVec 8), s.fb = t.fb ∧
      ((t.putcharFb c).fb = (s.drawCharFb cx cy shown).fb ∨
        (t.putcharFb c).fb = (s.drawCharFb cx cy shown).fb.scrollUp charH) := by
  rw [Terminal.putcharFbDraws] at draws
  split at draws
  · cases draws
  · next visible =>
    split at draws
    · next erases =>
      obtain ⟨rfl, rfl⟩ := Prod.mk.inj (Option.some.inj draws)
      rw [Terminal.putcharFb, if_neg visible, if_pos erases]
      split
      · exact ⟨{ t with terminalColumn := t.terminalColumn - charW }, space, rfl, Or.inl rfl⟩
      · exact ⟨{ t with terminalColumn := 0 }, space, rfl, Or.inl rfl⟩
    · next plain =>
      obtain ⟨rfl, rfl⟩ := Prod.mk.inj (Option.some.inj draws)
      refine ⟨t, c, rfl, ?_⟩
      rw [Terminal.putcharFb, if_neg visible, if_neg plain]
      simp only
      split
      · rw [Terminal.scrollFbIfFull]
        split
        · exact Or.inr rfl
        · exact Or.inl rfl
      · exact Or.inl rfl

end Pixels

/-- What every character of a text keeps holds after the text. -/
theorem write_invariant (Inv : Terminal → Prop) (keeps : ∀ t c, Inv t → Inv (t.putchar c)) {t : Terminal}
    (start : Inv t) (text : List (BitVec 8)) : Inv (t.write text) := by
  induction text generalizing t with
  | nil => exact start
  | cons c rest ih => exact ih (keeps t c start)

/-- After `clear_terminal` and any text, for any next character: in text mode it is written inside the text
buffer, and on a framebuffer of any size that holds a character the square at the cursor is inside and the
character is drawn. -/
theorem cursor_on_screen (t : Terminal) (text : List (BitVec 8)) (c : BitVec 8) :
    let s := t.clear.write text
    (t.fb.ok = false → ∀ i ∈ s.putcharVgaWrites c, i < vgaW * vgaH) ∧
      (HoldsCharacter t.fb → SquareInside s.fb s.terminalColumn (s.terminalRow * charH) fbScale ∧
        ∀ place ∈ s.putcharFbDraws c, DrawnAt s.fb place.1 place.2) := by
  intro s
  constructor
  · intro textMode
    have inside : InTextBuffer s :=
      write_invariant InTextBuffer (fun t c inside => inside.putchar c) (.clear textMode) text
    exact inside.writes_lt c
  · intro holds
    have inside : InFramebuffer s :=
      write_invariant InFramebuffer (fun t c inside => inside.putchar c) (.clear holds) text
    exact ⟨inside.cell, fun place draws => inside.drawnAt draws⟩

/-- A framebuffer whose width and height are no multiples of a character's. -/
def sampleNarrowTerminal : Terminal :=
  { sampleTerminal with fb := { sampleFramebuffer with width := 100, height := 50 } }

theorem cursor_on_screen_sample :
    (∀ i ∈ (sampleTerminal.clear.write [newline, 0x41]).putcharVgaWrites backspace, i < vgaW * vgaH) ∧
      ∀ place ∈ (sampleNarrowTerminal.clear.write [newline, newline, newline, 0x41]).putcharFbDraws 0x42,
        DrawnAt (sampleNarrowTerminal.clear.write [newline, newline, newline, 0x41]).fb place.1 place.2 :=
  ⟨(cursor_on_screen sampleTerminal _ _).1 rfl,
    ((cursor_on_screen sampleNarrowTerminal _ _).2 ⟨rfl, by decide, by decide⟩).2⟩

end RaryOS.Soundness
