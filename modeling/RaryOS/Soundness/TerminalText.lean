import RaryOS.Core.Wrap
import RaryOS.Proofs.Terminal

/-! # What the text screen shows

Without backspace the text buffer always shows the last 25 lines of the wrapped text. The invariant
splits the text into the lines that are complete and the line the cursor is in: 24 complete lines at
most are still on the screen.
-/

namespace RaryOS.Soundness

open RaryOS.Core RaryOS.Model

/-- The screen shows the last complete lines and the current one, with the cursor at its end. -/
structure Shows (t : Terminal) (complete : List (List (BitVec 8))) (line : List (BitVec 8)) : Prop where
  textMode : t.fb.ok = false
  row : t.terminalRow = (lastLines (vgaH - 1) complete).length
  column : t.terminalColumn = line.length
  cells : ∀ y < vgaH, ∀ x < vgaW,
    t.charAt y x = cellAt space (lastLines (vgaH - 1) complete ++ [line]) y x

namespace Shows

variable {t : Terminal} {complete : List (List (BitVec 8))} {line : List (BitVec 8)}

theorem clear (textMode : t.fb.ok = false) : Shows t.clear [] [] := by
  refine ⟨?_, rfl, rfl, fun y row x column => ?_⟩
  · rw [Terminal.clear_eq textMode]
    exact textMode
  · rw [Terminal.clear_charAt row column textMode, cellAt_concat_nil]
    exact (cellAt_of_le space (Nat.zero_le y) x).symm

/-- A character goes behind the current line. -/
theorem push (shows_ : Shows t complete line) (room : line.length < vgaW) (c : BitVec 8) :
    Shows (t.placed c) complete (line ++ [c]) := by
  refine ⟨shows_.textMode, shows_.row, ?_, fun y row x column => ?_⟩
  · rw [List.length_append, List.length_singleton, ← shows_.column]
    rfl
  · rw [cellAt_concat_push, ← shows_.row, ← shows_.column, ← shows_.cells y row x column]
    simp only [Terminal.charAt, Terminal.placed, Terminal.setCell]
    have place : y * vgaW + x = t.terminalRow * vgaW + t.terminalColumn ↔
        y = t.terminalRow ∧ x = t.terminalColumn := by
      have inside : t.terminalColumn < vgaW := shows_.column ▸ room
      rw [show vgaW = 80 from rfl] at *
      omega
    rw [apply_ite (BitVec.setWidth 8), vgaEntry_char]
    exact if_congr place rfl rfl

/-- On a new line the screen keeps its lines, and loses the first when it is full. -/
theorem nextLine (shows_ : Shows t complete line) :
    Shows t.nextLine.scrollVgaIfFull (complete ++ [line]) [] := by
  have height := lastLines_length (vgaH - 1) complete
  have row := shows_.row
  rw [Terminal.scrollVgaIfFull]
  rcases Nat.lt_or_ge complete.length (vgaH - 1) with room | full
  · have concat := lastLines_concat_of_lt room line
    have stays : ¬t.nextLine.terminalRow = vgaH := by
      simp only [Terminal.nextLine, vgaH] at *
      omega
    rw [if_neg stays]
    refine ⟨shows_.textMode, ?_, rfl, fun y inside x column => ?_⟩
    · rw [concat, List.length_append, List.length_singleton, ← row]
      rfl
    · rw [concat, cellAt_concat_nil]
      exact shows_.cells y inside x column
  · have concat := lastLines_concat_of_le (by decide) full line
    have shown : (lastLines (vgaH - 1) complete).length = vgaH - 1 := by omega
    have scrolls : t.nextLine.terminalRow = vgaH := by
      simp only [Terminal.nextLine, vgaH] at *
      omega
    rw [if_pos scrolls]
    refine ⟨?_, ?_, rfl, fun y inside x column => ?_⟩
    · rw [Terminal.scrollVga_eq]
      exact shows_.textMode
    · rw [concat, List.length_append, List.length_singleton, List.length_tail, shown]
      rfl
    · have nonempty : lastLines (vgaH - 1) complete ≠ [] := by
        rw [← List.length_pos_iff, shown]
        decide
      rw [concat, cellAt_concat_nil, ← List.tail_append_of_ne_nil nonempty, cellAt_tail,
        Terminal.scrollVga_charAt inside column]
      split
      · next upper => exact shows_.cells (y + 1) upper x column
      · next last =>
        rw [cellAt_of_le]
        rw [List.length_append, List.length_singleton, shown]
        omega

theorem textMode_putchar (textMode : t.fb.ok = false) (c : BitVec 8) : t.putchar c = t.putcharVga c := by
  rw [Terminal.putchar, textMode, if_neg Bool.false_ne_true]

/-- A text without backspace goes on the screen as it is wrapped. -/
theorem write (shows_ : Shows t complete line) (room : line.length < vgaW) {text : List (BitVec 8)}
    (plain : backspace ∉ text) :
    ∃ complete' last, complete ++ wrap vgaW newline line text = complete' ++ [last] ∧
      Shows (t.write text) complete' last := by
  induction text generalizing t complete line with
  | nil => exact ⟨complete, line, rfl, shows_⟩
  | cons c rest ih =>
    rw [List.mem_cons, not_or] at plain
    obtain ⟨other, plain⟩ := plain
    rw [Terminal.write_cons, textMode_putchar shows_.textMode, wrap]
    split
    · next breaks =>
      obtain ⟨complete', last, lines, final⟩ := ih shows_.nextLine (by decide) plain
      refine ⟨complete', last, by rw [← lines, List.append_assoc, List.singleton_append], ?_⟩
      rw [Terminal.putcharVga, if_pos breaks]
      exact final
    · next visible =>
      have pushed := shows_.push room c
      rw [Terminal.putcharVga_of_plain t visible (Ne.symm other), shows_.column]
      split
      · obtain ⟨complete', last, lines, final⟩ := ih pushed.nextLine (by decide) plain
        exact ⟨complete', last, by rw [← lines, List.append_assoc, List.singleton_append], final⟩
      · next short =>
        refine ih pushed ?_ plain
        rw [List.length_append, List.length_singleton]
        omega

end Shows

/-- After `clear_terminal` and any text without backspace, the text screen shows the last 25 lines of
the wrapped text, and the cursor stands at the end of the last of them. -/
theorem vga_shows_last_lines {t : Terminal} (textMode : t.fb.ok = false) {text : List (BitVec 8)}
    (plain : backspace ∉ text) :
    let lines := wrap vgaW newline [] text
    let shown := lastLines vgaH lines
    let screen := t.clear.write text
    (∀ line ∈ lines, line.length ≤ vgaW) ∧
      (∀ y < vgaH, ∀ x < vgaW, screen.charAt y x = cellAt space shown y x) ∧
      screen.terminalRow + 1 = shown.length ∧
      ∃ last, shown.getLast? = some last ∧ screen.terminalColumn = last.length := by
  intro lines shown screen
  obtain ⟨complete, last, wrapped, final⟩ := (Shows.clear textMode).write (by decide) plain
  have shownEq : shown = lastLines (vgaH - 1) complete ++ [last] := by
    rw [← lastLines_concat, ← wrapped]
    rfl
  refine ⟨wrap_length_le (by decide) text, ?_, ?_, last, ?_, final.column⟩
  · rw [shownEq]
    exact final.cells
  · rw [shownEq, List.length_append, List.length_singleton, final.row]
  · rw [shownEq, List.getLast?_concat]

/-- A terminal at boot, before there is a framebuffer. -/
def sampleTerminal : Terminal where
  fb := { mem := fun _ => 0 }
  fontData := fun _ _ => 0
  vga := fun _ => 0

/-- The 81st character of a line goes to the second row. -/
theorem vga_shows_last_lines_sample :
    let screen := sampleTerminal.clear.write (List.replicate 80 0x41 ++ [0x42])
    screen.charAt 0 79 = 0x41 ∧ screen.charAt 1 0 = 0x42 ∧ screen.charAt 1 1 = space ∧
      screen.terminalRow = 1 ∧ screen.terminalColumn = 1 := by
  intro screen
  obtain ⟨_, cells, row, last, final, column⟩ := @vga_shows_last_lines sampleTerminal rfl
    (List.replicate 80 0x41 ++ [0x42]) (by decide)
  have one : last = [0x42] := by
    have line : (lastLines vgaH (wrap vgaW newline [] (List.replicate 80 0x41 ++ [0x42]))).getLast? =
        some [0x42] := by decide
    rw [line] at final
    exact (Option.some.inj final).symm
  refine ⟨?_, ?_, ?_, ?_, ?_⟩
  · exact (cells 0 (by decide) 79 (by decide)).trans (by decide)
  · exact (cells 1 (by decide) 0 (by decide)).trans (by decide)
  · exact (cells 1 (by decide) 1 (by decide)).trans (by decide)
  · exact Nat.succ.inj (row.trans (by decide))
  · rw [column, one, List.length_singleton]

end RaryOS.Soundness
