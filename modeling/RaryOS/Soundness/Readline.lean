import RaryOS.Model.Shell

/-! # The line that readline leaves

The buffer holds the edited line at every round, and the index is its length; a deleted character stays in the
buffer behind the line and is overwritten. So the line at the newline is the fold of the editing rules.
-/

namespace RaryOS.Soundness

open RaryOS.Core RaryOS.Model RaryOS.Model.Shell

/-- The editing rules: nothing to read and carriage returns are ignored, a backspace or a delete removes the last
character, and any other is appended as long as there is room. -/
def editLine (max : ℤ) (line : List (BitVec 8)) (c : ℤ) : List (BitVec 8) :=
  if c = -1 ∨ c = '\r'.toNat then line
  else if c = 8 ∨ c = 127 then line.dropLast
  else if line.length < max - 1 then line ++ [BitVec.ofInt 8 c]
  else line

/-- The line after the first `k` results of `getchar`. -/
def editedLine (stream : ℕ → UserLibc.ReadAnswer) (max : ℤ) (k : ℕ) : List (BitVec 8) :=
  ((List.range k).map fun j => UserLibc.getchar (stream j)).foldl (editLine max) []

theorem editedLine_succ (stream : ℕ → UserLibc.ReadAnswer) (max : ℤ) (k : ℕ) :
    editedLine stream max (k + 1) = editLine max (editedLine stream max k) (UserLibc.getchar (stream k)) := by
  rw [editedLine, List.range_succ, List.map_append, List.map_singleton, List.foldl_concat]
  rfl

section Readline

variable {stream : ℕ → UserLibc.ReadAnswer} {buf fuel k : ℕ} {max : ℤ} {line echo : List (BitVec 8)} {m : Memory}
  {post : LineRead → Memory → Prop}

/-- `getchar` returns -1 or a byte. -/
theorem getchar_cases (answer : UserLibc.ReadAnswer) : UserLibc.getchar answer = -1 ∨ 0 ≤ UserLibc.getchar answer := by
  rw [UserLibc.getchar]
  split
  · exact Or.inl rfl
  · exact Or.inr (Int.natCast_nonneg _)

theorem length_editLine (room : (line.length : ℤ) ≤ max - 1) (c : ℤ) :
    ((editLine max line c).length : ℤ) ≤ max - 1 := by
  rw [editLine]
  split
  · exact room
  · split
    · rw [List.length_dropLast]
      omega
    · split
      · rw [List.length_append, List.length_singleton]
        omega
      · exact room

/-- One round with a character that does not end the line: the rest starts with the edited line in the buffer. -/
theorem readlineFrom_step (holds : m.Holds buf line)
    (more : UserLibc.getchar (stream k) ≠ '\n'.toNat)
    (rest : ∀ m' echo', m'.Holds buf (editLine max line (UserLibc.getchar (stream k))) →
      (readlineFrom stream buf max fuel (k + 1) (editLine max line (UserLibc.getchar (stream k))).length echo').Ensures
        m' (fun _ => False) (Span buf max.toNat) post) :
    (readlineFrom stream buf max (fuel + 1) k line.length echo).Ensures m (fun _ => False) (Span buf max.toNat)
      post := by
  have range := getchar_cases (stream k)
  rw [readlineFrom]
  rw [editLine] at rest
  generalize UserLibc.getchar (stream k) = c at *
  rw [if_neg more]
  split
  · next negative =>
    rw [if_pos (by omega)] at rest
    exact rest m echo holds
  · next positive =>
    split
    · next ignored =>
      rw [if_pos (Or.inr ignored)] at rest
      exact rest m echo holds
    · next used =>
      rw [if_neg (by omega)] at rest
      split
      · next deletes =>
        rw [if_pos deletes, List.length_dropLast] at rest
        have shorter : m.Holds buf line.dropLast := by
          rw [← List.take_append_drop (line.length - 1) line, Memory.holds_append] at holds
          rw [List.dropLast_eq_take]
          exact holds.1
        split
        · exact rest m _ shorter
        · next empty =>
          rw [show line.length - 1 = line.length by omega] at rest
          exact rest m _ shorter
      · next keeps =>
        rw [if_neg keeps] at rest
        split
        · next small =>
          rw [if_pos small, List.length_append, List.length_singleton] at rest
          apply Prog.Ensures.write_bind ⟨by omega, by omega⟩
          exact rest _ _ (holds.store8_snoc _)
        · next full =>
          rw [if_neg full] at rest
          exact rest m _ holds

/-- The run from the `k`-th result on, up to the newline. -/
theorem readlineFrom_ensures {left : ℕ} (holds : m.Holds buf (editedLine stream max k))
    (room : ((editedLine stream max k).length : ℤ) ≤ max - 1)
    (newline : UserLibc.getchar (stream (k + left)) = '\n'.toNat)
    (before : ∀ j < k + left, UserLibc.getchar (stream j) ≠ '\n'.toNat) (enough : left < fuel) :
    (readlineFrom stream buf max fuel k (editedLine stream max k).length echo).Ensures m (fun _ => False)
      (Span buf max.toNat) fun r m' => (r.n : ℤ) ≤ max - 1 ∧ r.n = (editedLine stream max (k + left)).length ∧
        r.taken = k + left + 1 ∧ m'.Holds buf (editedLine stream max (k + left) ++ [0]) := by
  induction left generalizing m k fuel echo with
  | zero =>
    obtain ⟨fuel, rfl⟩ := Nat.exists_eq_add_one_of_ne_zero (Nat.ne_zero_of_lt enough)
    rw [Nat.add_zero] at newline ⊢
    rw [readlineFrom, newline]
    apply Prog.Ensures.write_bind ⟨by omega, by omega⟩
    exact .pure ⟨room, rfl, rfl, holds.store8_snoc 0⟩
  | succ left ih =>
    obtain ⟨fuel, rfl⟩ := Nat.exists_eq_add_one_of_ne_zero (Nat.ne_zero_of_lt enough)
    apply readlineFrom_step holds (before k (by omega))
    rw [← editedLine_succ]
    intro m' echo' holds'
    have room' := length_editLine room (UserLibc.getchar (stream k))
    rw [← editedLine_succ] at room'
    have next : k + (left + 1) = k + 1 + left := by omega
    rw [next] at newline before ⊢
    exact ih holds' room' newline before (by omega)

/-- For every stream of results of `getchar` with its first newline at `k`, and every `max` of at least 1:
`readline` ends, writes inside the buffer only, and leaves there the edited line with its terminator. -/
theorem readline_edits (positive : 1 ≤ max) (newline : UserLibc.getchar (stream k) = '\n'.toNat)
    (before : ∀ j < k, UserLibc.getchar (stream j) ≠ '\n'.toNat) (enough : k < fuel) (m : Memory) (buf : ℕ) :
    (readline stream buf max fuel).Ensures m (fun _ => False) (Span buf max.toNat) fun r m' =>
      (r.n : ℤ) ≤ max - 1 ∧ r.n = (editedLine stream max k).length ∧ r.taken = k + 1 ∧
        m'.Holds buf (editedLine stream max k ++ [0]) := by
  have room : ((editedLine stream max 0).length : ℤ) ≤ max - 1 := by
    rw [show (editedLine stream max 0).length = 0 from rfl]
    omega
  have empty : m.Holds buf (editedLine stream max 0) := trivial
  rw [← Nat.zero_add k] at newline before ⊢
  exact readlineFrom_ensures empty room newline before enough

end Readline

/-- The characters `ab`, a backspace, nothing to read, `cd`, and the newline. -/
def typed (k : ℕ) : UserLibc.ReadAnswer :=
  [⟨1, ch 'a'⟩, ⟨1, ch 'b'⟩, ⟨1, 8⟩, ⟨0, 0⟩, ⟨1, ch 'c'⟩, ⟨1, ch 'd'⟩].getD k ⟨1, ch '\n'⟩

/-- With room for two characters the line is `ac`. -/
theorem readline_edits_sample :
    editedLine typed 3 6 = [ch 'a', ch 'c'] ∧
      (readline typed 0x1000 3 7).Ensures (fun _ => 0xFF) (fun _ => False) (Span 0x1000 3) fun r m' =>
        (r.n : ℤ) ≤ 3 - 1 ∧ r.n = (editedLine typed 3 6).length ∧ r.taken = 6 + 1 ∧
          m'.Holds 0x1000 (editedLine typed 3 6 ++ [0]) :=
  ⟨by decide, readline_edits (by decide) (by decide) (by decide) (by decide) _ _⟩

end RaryOS.Soundness
