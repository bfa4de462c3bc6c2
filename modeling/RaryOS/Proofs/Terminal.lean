import RaryOS.Model.Terminal
import Mathlib.Tactic.Common

/-! # The loops of the text mode

Copying and filling cells one by one, scrolling and clearing are each described as one function on the
whole buffer.
-/

namespace RaryOS.Model.Terminal

/-- Cells copied upwards one by one, from where nothing is written. -/
theorem copyCells_eq (t : Terminal) {dst src n : ℕ} (apart : dst + n ≤ src) :
    (List.range n).foldl (fun t x => t.setCell (dst + x) (t.vga (src + x))) t =
      { t with vga := fun j => if dst ≤ j ∧ j < dst + n then t.vga (src + (j - dst)) else t.vga j } := by
  induction n with
  | zero =>
    simp only [List.range_zero, List.foldl_nil, Nat.add_zero]
    rw [show (fun j => if dst ≤ j ∧ j < dst then t.vga (src + (j - dst)) else t.vga j) = t.vga from
      funext fun j => if_neg (by omega)]
  | succ n ih =>
    rw [List.range_succ, List.foldl_append, ih (by omega), List.foldl_cons, List.foldl_nil, setCell]
    simp only [Terminal.mk.injEq, true_and, and_true]
    apply funext
    intro j
    rw [if_neg (by omega : ¬(dst ≤ src + n ∧ src + n < dst + n))]
    split
    · next last =>
      rw [if_pos (by omega), last, Nat.add_sub_cancel_left]
    · next other => exact if_congr (by omega) rfl rfl

/-- Cells filled one by one. -/
theorem fillCells_eq (t : Terminal) (dst n : ℕ) (cell : BitVec 16) :
    (List.range n).foldl (fun t x => t.setCell (dst + x) cell) t =
      { t with vga := fun j => if dst ≤ j ∧ j < dst + n then cell else t.vga j } := by
  induction n with
  | zero =>
    simp only [List.range_zero, List.foldl_nil, Nat.add_zero]
    rw [show (fun j => if dst ≤ j ∧ j < dst then cell else t.vga j) = t.vga from
      funext fun j => if_neg (by omega)]
  | succ n ih =>
    rw [List.range_succ, List.foldl_append, ih, List.foldl_cons, List.foldl_nil, setCell]
    simp only [Terminal.mk.injEq, true_and, and_true]
    apply funext
    intro j
    split
    · next last => rw [if_pos (by omega)]
    · next other => exact if_congr (by omega) rfl rfl

/-- The first `n` rows replaced by the rows below them. -/
theorem copyRows_eq (t : Terminal) (n : ℕ) :
    (List.range' 1 n).foldl (fun t y => (List.range vgaW).foldl
        (fun t x => t.setCell ((y - 1) * vgaW + x) (t.vga (y * vgaW + x))) t) t =
      { t with vga := fun j => if j < n * vgaW then t.vga (j + vgaW) else t.vga j } := by
  induction n with
  | zero =>
    simp only [List.range'_zero, List.foldl_nil, Nat.zero_mul, Nat.not_lt_zero, if_false]
  | succ n ih =>
    rw [List.range'_1_concat, List.foldl_append, ih, List.foldl_cons, List.foldl_nil,
      copyCells_eq _ (by simp only [vgaW]; omega)]
    simp only [Terminal.mk.injEq, true_and, and_true]
    apply funext
    intro j
    rw [show vgaW = 80 from rfl]
    rcases Nat.lt_trichotomy (j / 80) n with above | row | below
    · rw [if_neg (by omega), if_pos (by omega), if_pos (by omega)]
    · rw [if_pos (by omega), if_neg (by omega), if_pos (by omega),
        show (1 + n) * 80 + (j - (1 + n - 1) * 80) = j + 80 by omega]
    · rw [if_neg (by omega), if_neg (by omega), if_neg (by omega)]

theorem scrollVga_eq (t : Terminal) :
    t.scrollVga =
      { t with
        vga := fun j =>
          if (vgaH - 1) * vgaW ≤ j ∧ j < vgaH * vgaW then vgaBlank
          else if j < (vgaH - 1) * vgaW then t.vga (j + vgaW) else t.vga j
        terminalRow := vgaH - 1
        terminalColumn := 0 } := by
  simp only [scrollVga, copyRows_eq, fillCells_eq]
  rfl

theorem clear_eq {t : Terminal} (textMode : t.fb.ok = false) :
    t.clear =
      { t with
        vga := fun j => if j < vgaW * vgaH then vgaBlank else t.vga j
        terminalRow := 0
        terminalColumn := 0 } := by
  have fill := fillCells_eq t 0 (vgaW * vgaH) vgaBlank
  simp only [Nat.zero_add, Nat.zero_le, true_and] at fill
  simp only [clear, textMode, Bool.false_eq_true, if_false, fill]

theorem drawCharFb_same (t : Terminal) (cx cy : ℕ) (c : BitVec 8) :
    t.fb.SameScreen (t.drawCharFb cx cy c).fb := by
  rw [drawCharFb]
  split
  · exact .refl t.fb
  · exact Framebuffer.drawGlyph_same ..

theorem drawCharFb_cursor (t : Terminal) (cx cy : ℕ) (c : BitVec 8) :
    (t.drawCharFb cx cy c).terminalRow = t.terminalRow ∧
      (t.drawCharFb cx cy c).terminalColumn = t.terminalColumn := by
  rw [drawCharFb]
  split <;> exact ⟨rfl, rfl⟩

/-- A character in the cell of the cursor, and the cursor behind it. -/
def placed (t : Terminal) (c : BitVec 8) : Terminal :=
  { t.setCell (t.terminalRow * vgaW + t.terminalColumn) (vgaEntry c t.terminalColor) with
    terminalColumn := t.terminalColumn + 1 }

theorem putcharVga_of_plain (t : Terminal) {c : BitVec 8} (visible : c ≠ newline) (other : c ≠ backspace) :
    t.putcharVga c =
      if t.terminalColumn + 1 = vgaW then (t.placed c).nextLine.scrollVgaIfFull else t.placed c := by
  rw [putcharVga, if_neg visible, if_neg other]
  rfl

section Cells

variable {y x : ℕ} (row : y < vgaH) (column : x < vgaW)

include row column

theorem clear_charAt {t : Terminal} (textMode : t.fb.ok = false) : t.clear.charAt y x = space := by
  have inside : y * vgaW + x < vgaW * vgaH := by
    simp only [vgaW, vgaH] at *
    omega
  simp only [charAt, clear_eq textMode, if_pos inside, vgaBlank, vgaEntry_char]

/-- Scrolling moves every character up by one row. -/
theorem scrollVga_charAt (t : Terminal) :
    t.scrollVga.charAt y x = if y + 1 < vgaH then t.charAt (y + 1) x else space := by
  simp only [charAt, scrollVga_eq]
  rcases Nat.lt_or_ge (y + 1) vgaH with upper | last
  · have above : ¬((vgaH - 1) * vgaW ≤ y * vgaW + x ∧ y * vgaW + x < vgaH * vgaW) ∧
        y * vgaW + x < (vgaH - 1) * vgaW ∧ y * vgaW + x + vgaW = (y + 1) * vgaW + x := by
      simp only [vgaW, vgaH] at *
      omega
    rw [if_neg above.1, if_pos above.2.1, above.2.2, if_pos upper]
  · have bottom : (vgaH - 1) * vgaW ≤ y * vgaW + x ∧ y * vgaW + x < vgaH * vgaW := by
      simp only [vgaW, vgaH] at *
      omega
    rw [if_pos bottom, vgaBlank, vgaEntry_char, if_neg (Nat.not_lt.mpr last)]

end Cells

end RaryOS.Model.Terminal
