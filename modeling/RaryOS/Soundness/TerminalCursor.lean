import RaryOS.Soundness.TerminalText

/-! # The cursors of the two back ends

On a framebuffer of 80 by 25 characters the cursor counts the same rows, and pixels instead of columns.
Both back ends move it in the same way, except for a backspace at the left edge below the first row:
the text mode goes to the end of the row above, the framebuffer stays.
-/

namespace RaryOS.Soundness

open RaryOS.Core RaryOS.Model

/-- The framebuffer's cursor, in characters, is the one of the text mode. -/
def CursorsAgree (f v : Terminal) : Prop :=
  f.terminalRow = v.terminalRow ∧ f.terminalColumn / charW = v.terminalColumn

/-- The cursor of the text mode is at the left edge, but not of the first row. -/
def AtLeftEdge (v : Terminal) : Prop := v.terminalColumn = 0 ∧ 0 < v.terminalRow

instance (v : Terminal) : Decidable (AtLeftEdge v) := inferInstanceAs (Decidable (_ ∧ _))

/-- A framebuffer that holds exactly 80 by 25 characters. -/
structure HoldsGrid (fb : Framebuffer) : Prop where
  available : fb.ok = true
  width : fb.width / charW = vgaW
  height : fb.height / charH = vgaH

theorem HoldsGrid.of_same {fb fb' : Framebuffer} (same : fb.SameScreen fb') (holds : HoldsGrid fb) :
    HoldsGrid fb' :=
  ⟨same.ok.trans holds.available, same.width ▸ holds.width, same.height ▸ holds.height⟩

/-- Both terminals in their mode and in the same row. -/
structure SameRow (f v : Terminal) : Prop where
  grid : HoldsGrid f.fb
  textMode : v.fb.ok = false
  row : f.terminalRow = v.terminalRow
  inside : v.terminalRow < vgaH

/-- And in the same column. -/
structure SameCursor (f v : Terminal) : Prop extends SameRow f v where
  column : f.terminalColumn = charW * v.terminalColumn
  room : v.terminalColumn < vgaW

section Simulation

variable {f v : Terminal}

theorem SameCursor.agree (same : SameCursor f v) : CursorsAgree f v :=
  ⟨same.row, by rw [same.column, Nat.mul_div_cancel_left _ (by decide)]⟩

theorem SameCursor.clear (grid : HoldsGrid f.fb) (textMode : v.fb.ok = false) :
    SameCursor f.clear v.clear := by
  have screen : f.fb.SameScreen f.clear.fb := by
    simp only [Terminal.clear, grid.available, if_true, Framebuffer.clear]
    exact Framebuffer.fillRect_same ..
  refine ⟨⟨grid.of_same screen, ?_, rfl, vgaH_pos⟩, rfl, vgaW_pos⟩
  rw [Terminal.clear_eq textMode]
  exact textMode

/-- A new line goes to the same row in both, with a scroll in both or in neither. -/
theorem SameRow.nextLine (same : SameRow f v) :
    SameCursor f.nextLine.scrollFbIfFull v.nextLine.scrollVgaIfFull := by
  have height := same.grid.height
  have row : f.nextLine.terminalRow = v.terminalRow + 1 := congrArg (· + 1) same.row
  have inside := same.inside
  rw [Terminal.scrollFbIfFull, Terminal.scrollVgaIfFull]
  rcases Nat.lt_or_ge (v.terminalRow + 1) vgaH with upper | last
  · have stays : ¬f.nextLine.fb.height < (f.nextLine.terminalRow + 1) * charH := by
      rw [row]
      simp only [Terminal.nextLine, charH, fbScale, vgaH] at *
      omega
    have stays' : ¬v.nextLine.terminalRow = vgaH := fun full => absurd full (Nat.ne_of_lt upper)
    rw [if_neg stays, if_neg stays']
    exact ⟨⟨same.grid, same.textMode, row, upper⟩, rfl, vgaW_pos⟩
  · have scrolls : f.nextLine.fb.height < (f.nextLine.terminalRow + 1) * charH := by
      rw [row]
      simp only [Terminal.nextLine, charH, fbScale, vgaH] at *
      omega
    have scrolls' : v.nextLine.terminalRow = vgaH := Nat.le_antisymm inside last
    rw [if_pos scrolls, if_pos scrolls', Terminal.scrollVga_eq]
    refine ⟨⟨same.grid.of_same (Framebuffer.scrollUp_same ..), same.textMode, ?_,
      Nat.sub_lt vgaH_pos Nat.one_pos⟩, rfl, vgaW_pos⟩
    simp only [Terminal.scrollFb, Terminal.nextLine, height]
    rfl

/-- A backspace away from the left edge, or in the first row. -/
theorem SameCursor.erase (same : SameCursor f v) (away : ¬AtLeftEdge v) :
    SameCursor (f.putcharFb backspace) (v.putcharVga backspace) := by
  have column : f.terminalColumn = 16 * v.terminalColumn := same.column
  have room := same.room
  have wide : charW = 16 := rfl
  simp only [Terminal.putcharFb, Terminal.putcharVga, if_neg (show ¬backspace = newline by decide), if_true]
  rcases Nat.eq_zero_or_pos v.terminalColumn with edge | behind
  · have first : ¬0 < v.terminalRow := fun below => away ⟨edge, below⟩
    rw [if_neg (show ¬charW ≤ f.terminalColumn by omega), if_neg (show ¬0 < v.terminalColumn by omega),
      if_neg first]
    obtain ⟨row, column⟩ := Terminal.drawCharFb_cursor { f with terminalColumn := 0 } (0 % 2 ^ 32)
      (f.terminalRow * charH % 2 ^ 32) space
    refine ⟨⟨same.grid.of_same (Terminal.drawCharFb_same ..), same.textMode, row.trans same.row,
      same.inside⟩, ?_, room⟩
    rw [column]
    simp only [Terminal.setCell, edge]
    rfl
  · rw [if_pos (show charW ≤ f.terminalColumn by omega), if_pos behind]
    obtain ⟨row, moved⟩ := Terminal.drawCharFb_cursor
      { f with terminalColumn := f.terminalColumn - charW } ((f.terminalColumn - charW) % 2 ^ 32)
      (f.terminalRow * charH % 2 ^ 32) space
    refine ⟨⟨same.grid.of_same (Terminal.drawCharFb_same ..), same.textMode, row.trans same.row,
      same.inside⟩, ?_, ?_⟩
    · rw [moved]
      simp only [Terminal.setCell, wide]
      omega
    · simp only [Terminal.setCell]
      omega

/-- A character that takes a cell wraps in both or in neither. -/
theorem SameCursor.plain (same : SameCursor f v) {c : BitVec 8} (visible : c ≠ newline)
    (other : c ≠ backspace) : SameCursor (f.putcharFb c) (v.putcharVga c) := by
  have width := same.grid.width
  have column := same.column
  have room := same.room
  rw [Terminal.putcharVga_of_plain v visible other, Terminal.putcharFb, if_neg visible, if_neg other]
  have screen := Terminal.drawCharFb_same f (f.terminalColumn % 2 ^ 32) (f.terminalRow * charH % 2 ^ 32) c
  obtain ⟨row, kept⟩ := Terminal.drawCharFb_cursor f (f.terminalColumn % 2 ^ 32)
    (f.terminalRow * charH % 2 ^ 32) c
  have moved : SameRow
      { f.drawCharFb (f.terminalColumn % 2 ^ 32) (f.terminalRow * charH % 2 ^ 32) c with
        terminalColumn := (f.drawCharFb (f.terminalColumn % 2 ^ 32)
          (f.terminalRow * charH % 2 ^ 32) c).terminalColumn + charW } (v.placed c) :=
    ⟨same.grid.of_same screen, same.textMode, row.trans same.row, same.inside⟩
  have ends : (f.drawCharFb (f.terminalColumn % 2 ^ 32) (f.terminalRow * charH % 2 ^ 32) c).fb.width <
      (f.drawCharFb (f.terminalColumn % 2 ^ 32) (f.terminalRow * charH % 2 ^ 32) c).terminalColumn +
        charW + charW ↔ v.terminalColumn + 1 = vgaW := by
    rw [screen.width, kept, column]
    simp only [charW, fbScale, vgaW] at *
    omega
  by_cases full : v.terminalColumn + 1 = vgaW
  · rw [if_pos full]
    simp only [if_pos (ends.mpr full)]
    exact moved.nextLine
  · rw [if_neg full]
    simp only [if_neg (mt ends.mp full)]
    refine ⟨moved, ?_, ?_⟩
    · simp only [Terminal.placed]
      rw [kept, column, Nat.mul_succ]
    · exact Nat.lt_of_le_of_ne room full

/-- Every character but a backspace at the left edge moves both cursors in the same way. -/
theorem SameCursor.putchar (same : SameCursor f v) {c : BitVec 8}
    (away : ¬(c = backspace ∧ AtLeftEdge v)) : SameCursor (f.putchar c) (v.putchar c) := by
  rw [Terminal.putchar, Terminal.putchar, same.grid.available, same.textMode, if_pos rfl,
    if_neg Bool.false_ne_true]
  by_cases breaks : c = newline
  · rw [Terminal.putcharFb, Terminal.putcharVga, if_pos breaks, if_pos breaks]
    exact same.toSameRow.nextLine
  by_cases erases : c = backspace
  · subst erases
    exact same.erase fun edge => away ⟨rfl, edge⟩
  · exact same.plain breaks erases

/-- There the text mode leaves the row and the framebuffer does not. -/
theorem SameCursor.backspace_apart (same : SameCursor f v) (edge : AtLeftEdge v) :
    ¬CursorsAgree (f.putchar backspace) (v.putchar backspace) := by
  obtain ⟨left, below⟩ := edge
  rintro ⟨row, _⟩
  simp only [Terminal.putchar, same.grid.available, same.textMode, if_true, Bool.false_eq_true, if_false,
    Terminal.putcharFb, Terminal.putcharVga, if_neg (show ¬backspace = newline by decide), left,
    Nat.lt_irrefl, if_pos below] at row
  rw [(Terminal.drawCharFb_cursor ..).1] at row
  have stays := same.row
  split at row <;> simp only [Terminal.setCell] at row <;> omega

end Simulation

/-- From the same position, the cursors agree after every character of a text exactly when no backspace
of it finds the cursor at the left edge of a row below the first. -/
theorem SameCursor.write_iff {f v : Terminal} (same : SameCursor f v) (text : List (BitVec 8)) :
    (∀ done, done <+: text → CursorsAgree (f.write done) (v.write done)) ↔
      ∀ done, done ++ [backspace] <+: text → ¬AtLeftEdge (v.write done) := by
  induction text generalizing f v with
  | nil =>
    constructor
    · intro _ done before
      exact absurd (List.prefix_nil.mp before) (List.append_ne_nil_of_right_ne_nil _ (by decide))
    · intro _ done before
      rw [List.prefix_nil.mp before]
      exact same.agree
  | cons c rest ih =>
    by_cases apart : c = backspace ∧ AtLeftEdge v
    · obtain ⟨rfl, edge⟩ := apart
      refine iff_of_false (fun agree => ?_) (fun away => ?_)
      · exact same.backspace_apart edge (agree [backspace] (by simp))
      · exact away [] (by simp) edge
    · have next := ih (same.putchar apart)
      constructor
      · intro agree done before
        rcases done with _ | ⟨d, done⟩
        · intro edge
          exact apart ⟨(List.cons_prefix_cons.mp before).1.symm, edge⟩
        · obtain ⟨rfl, inner⟩ := List.cons_prefix_cons.mp before
          exact next.mp (fun done inside => agree (d :: done) (List.cons_prefix_cons.mpr ⟨rfl, inside⟩))
            done inner
      · intro away done before
        rcases done with _ | ⟨d, done⟩
        · exact same.agree
        · obtain ⟨rfl, inner⟩ := List.cons_prefix_cons.mp before
          exact next.mpr (fun done inside => away (d :: done) (List.cons_prefix_cons.mpr ⟨rfl, inside⟩))
            done inner

/-- After `clear_terminal` the two cursors agree after every character of a text exactly when no
backspace of it finds the text cursor at the left edge of a row below the first. -/
theorem cursors_agree_iff {f v : Terminal} (grid : HoldsGrid f.fb) (textMode : v.fb.ok = false)
    (text : List (BitVec 8)) :
    (∀ done, done <+: text → CursorsAgree (f.clear.write done) (v.clear.write done)) ↔
      ∀ done, done ++ [backspace] <+: text → ¬AtLeftEdge (v.clear.write done) :=
  (SameCursor.clear grid textMode).write_iff text

/-- The sample terminal on the framebuffer that the boot header asks for. -/
def sampleFbTerminal : Terminal :=
  { sampleTerminal with
    fb := { mem := fun _ => 0, base := 0xFD000000, width := 1280, height := 400, pitch := 5120, ok := true } }

theorem sampleFbTerminal_grid : HoldsGrid sampleFbTerminal.fb := ⟨rfl, by decide, by decide⟩

theorem cursors_agree_iff_sample :
    CursorsAgree (sampleFbTerminal.clear.write [0x41, backspace, newline, 0x42])
      (sampleTerminal.clear.write [0x41, backspace, newline, 0x42]) := by
  refine (cursors_agree_iff sampleFbTerminal_grid rfl _).mpr (fun done before => ?_) _ (List.prefix_refl _)
  have only : done = [0x41] := by
    rcases done with _ | ⟨a, _ | ⟨b, _ | ⟨c, _ | ⟨d, rest⟩⟩⟩⟩ <;>
      simp [List.cons_prefix_cons, backspace, newline] at before ⊢
    exact before
  rw [only, Terminal.clear_eq (t := sampleTerminal) rfl]
  decide

/-- A backspace right after a new line goes back to the first row in text mode only. -/
theorem cursors_agree_fails :
    ¬CursorsAgree (sampleFbTerminal.clear.write [newline, backspace])
        (sampleTerminal.clear.write [newline, backspace]) ∧
      (sampleTerminal.clear.write [newline, backspace]).terminalRow = 0 ∧
      (sampleFbTerminal.clear.write [newline, backspace]).terminalRow = 1 := by
  have text : (sampleTerminal.clear.write [newline, backspace]).terminalRow = 0 := by
    rw [Terminal.clear_eq (t := sampleTerminal) rfl]
    decide
  have pixels : (sampleFbTerminal.clear.write [newline, backspace]).terminalRow = 1 := by decide
  refine ⟨?_, text, pixels⟩
  rintro ⟨row, _⟩
  rw [text, pixels] at row
  cases row

end RaryOS.Soundness
