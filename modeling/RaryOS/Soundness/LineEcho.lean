import RaryOS.Soundness.Readline
import RaryOS.Soundness.TerminalPage

/-! # What is on the screen is what is in the buffer

`readline` echoes each character, and a backspace as back, space and back. After every key the screen shows the
line as it stands in the buffer, from the place where the prompt ended, however the line wraps and scrolls: the
text mode takes a backspace to the line above. This needs a line that leaves one row of the screen free.
-/

namespace RaryOS.Soundness

open RaryOS.Core RaryOS.Model RaryOS.Model.Shell

/-- What `readline` writes for a result of `getchar`. -/
def echoOf (max : ℤ) (line : List (BitVec 8)) (c : ℤ) : List (BitVec 8) :=
  if c = -1 ∨ c = '\r'.toNat then []
  else if c = 8 ∨ c = 127 then if 0 < line.length then [8, ch ' ', 8] else []
  else if line.length < max - 1 then [BitVec.ofInt 8 c]
  else []

/-- What it has written after the first `k` results. -/
def echoed (stream : ℕ → UserLibc.ReadAnswer) (max : ℤ) (k : ℕ) : List (BitVec 8) :=
  (List.range k).flatMap fun j => echoOf max (editedLine stream max j) (UserLibc.getchar (stream j))

theorem echoed_succ (stream : ℕ → UserLibc.ReadAnswer) (max : ℤ) (k : ℕ) :
    echoed stream max (k + 1) =
      echoed stream max k ++ echoOf max (editedLine stream max k) (UserLibc.getchar (stream k)) := by
  rw [echoed, List.range_succ, List.flatMap_append, List.flatMap_singleton]
  rfl

section Echo

variable {stream : ℕ → UserLibc.ReadAnswer} {buf fuel k : ℕ} {max : ℤ} {line echo : List (BitVec 8)} {m : Memory}
  {post : LineRead → Memory → Prop}

/-- One round with a character that does not end the line. -/
theorem readlineFrom_echo (more : UserLibc.getchar (stream k) ≠ '\n'.toNat)
    (rest : ∀ m', (readlineFrom stream buf max fuel (k + 1)
      (editLine max line (UserLibc.getchar (stream k))).length
      (echo ++ echoOf max line (UserLibc.getchar (stream k)))).Ensures m' (fun _ => False) (Span buf max.toNat) post) :
    (readlineFrom stream buf max (fuel + 1) k line.length echo).Ensures m (fun _ => False) (Span buf max.toNat)
      post := by
  have range := getchar_cases (stream k)
  rw [readlineFrom]
  rw [editLine, echoOf] at rest
  generalize UserLibc.getchar (stream k) = c at *
  rw [if_neg more]
  rcases em (c = -1 ∨ c = '\r'.toNat) with ignored | used
  · rw [if_pos ignored, if_pos ignored, List.append_nil] at rest
    rcases ignored with negative | returns
    · rw [if_pos (by omega)]
      exact rest m
    · rw [if_neg (by omega), if_pos returns]
      exact rest m
  rw [if_neg used, if_neg used] at rest
  rw [if_neg (by omega), if_neg fun returns => used (Or.inr returns)]
  split
  · next deletes =>
    rw [if_pos deletes, if_pos deletes, List.length_dropLast] at rest
    split
    · next nonempty =>
      rw [if_pos nonempty] at rest
      exact rest m
    · next empty =>
      rw [if_neg empty, List.append_nil, show line.length - 1 = line.length by omega] at rest
      exact rest m
  · next keeps =>
    rw [if_neg keeps, if_neg keeps] at rest
    split
    · next small =>
      rw [if_pos small, if_pos small, List.length_append, List.length_singleton] at rest
      apply Prog.Ensures.write_bind ⟨by omega, by omega⟩
      exact rest _
    · next full =>
      rw [if_neg full, if_neg full, List.append_nil] at rest
      exact rest m

/-- The echo of the run from the `k`-th result on, up to the newline. -/
theorem readlineFrom_echoes {left : ℕ} (room : ((editedLine stream max k).length : ℤ) ≤ max - 1)
    (newline : UserLibc.getchar (stream (k + left)) = '\n'.toNat)
    (before : ∀ j < k + left, UserLibc.getchar (stream j) ≠ '\n'.toNat) (enough : left < fuel) :
    (readlineFrom stream buf max fuel k (editedLine stream max k).length (echoed stream max k)).Ensures m
      (fun _ => False) (Span buf max.toNat) fun r _ => r.echo = echoed stream max (k + left) ++ [ch '\n'] := by
  induction left generalizing m k fuel with
  | zero =>
    obtain ⟨fuel, rfl⟩ := Nat.exists_eq_add_one_of_ne_zero (Nat.ne_zero_of_lt enough)
    rw [Nat.add_zero] at newline ⊢
    rw [readlineFrom, newline]
    apply Prog.Ensures.write_bind ⟨by omega, by omega⟩
    exact .pure rfl
  | succ left ih =>
    obtain ⟨fuel, rfl⟩ := Nat.exists_eq_add_one_of_ne_zero (Nat.ne_zero_of_lt enough)
    apply readlineFrom_echo (before k (by omega))
    rw [← editedLine_succ, ← echoed_succ]
    intro m'
    have room' := length_editLine room (UserLibc.getchar (stream k))
    rw [← editedLine_succ] at room'
    have next : k + (left + 1) = k + 1 + left := by omega
    rw [next] at newline before ⊢
    exact ih room' newline before (by omega)

end Echo

/-! ## On the page -/

section Screen

variable {stream : ℕ → UserLibc.ReadAnswer} {k : ℕ} {max : ℤ} {color : BitVec 8} {base : Page (BitVec 16)}
  {line : List (BitVec 8)} {c : ℤ}

/-- A character of the line is drawn as itself. -/
theorem ofInt_ne {d : BitVec 8} (lower : 0 ≤ c) (upper : c < 256) (other : c ≠ d.toNat) : BitVec.ofInt 8 c ≠ d := by
  intro same
  have value : (BitVec.ofInt 8 c).toNat = c.toNat := by
    rw [BitVec.toNat_ofInt]
    omega
  rw [same] at value
  omega

/-- `getchar` returns a byte. -/
theorem getchar_lt (answer : UserLibc.ReadAnswer) : UserLibc.getchar answer < 256 := by
  have byte := answer.c.isLt
  rw [UserLibc.getchar]
  split <;> omega

/-- The echo of a key does on the page what the key does to the line. -/
theorem Typed.echo {p : Page (BitVec 16)} {limit : ℕ} (typed : Page.Typed (vgaStyle color) base limit line p)
    (inside : base.Inside (vgaStyle color)) (fresh : base.Fresh (vgaStyle color))
    (fits : limit + vgaW ≤ vgaH * vgaW) (most : max - 1 = limit) (answer : UserLibc.ReadAnswer)
    (more : UserLibc.getchar answer ≠ '\n'.toNat) :
    Page.Typed (vgaStyle color) base limit (editLine max line (UserLibc.getchar answer))
      (p.write (vgaStyle color) (echoOf max line (UserLibc.getchar answer))) := by
  have lower := getchar_cases answer
  have upper := getchar_lt answer
  rw [editLine, echoOf]
  generalize UserLibc.getchar answer = c at *
  split
  · exact typed
  · next used =>
    have nonnegative : 0 ≤ c := lower.resolve_left fun negative => used (Or.inl negative)
    split
    · split
      · next nonempty =>
        exact typed.rubout inside rfl fresh fits (List.length_pos_iff.mp nonempty) (show ch ' ' ≠ newline by decide)
          (show ch ' ' ≠ backspace by decide) (show backspace ≠ newline by decide)
      · next empty =>
        rw [List.length_pos_iff, not_not] at empty
        subst empty
        exact typed
    · next keeps =>
      split
      · next small =>
        have other := ofInt_ne (d := backspace) nonnegative upper fun erases => keeps (Or.inl erases)
        exact typed.put (ofInt_ne nonnegative upper more) other (by omega)
      · exact typed

/-- After `k` results the page holds the line as it stands in the buffer. -/
theorem echoed_typed (inside : base.Inside (vgaStyle color)) (fresh : base.Fresh (vgaStyle color)) {limit : ℕ}
    (fits : limit + vgaW ≤ vgaH * vgaW) (most : max - 1 = limit)
    (before : ∀ j < k, UserLibc.getchar (stream j) ≠ '\n'.toNat) :
    Page.Typed (vgaStyle color) base limit (editedLine stream max k)
      (base.write (vgaStyle color) (echoed stream max k)) := by
  induction k with
  | zero => exact .start inside limit
  | succ k ih =>
    rw [editedLine_succ, echoed_succ, Page.write_append]
    exact Typed.echo (ih fun j earlier => before j (by omega)) inside fresh fits most _ (before k (by omega))

/-- For every text on the screen and every stream of results of `getchar` with its first newline at `k`: `readline`
leaves the edited line in the buffer, and after each key the screen shows the line as it is then, from the cursor
that it found. The line may have as many characters as the screen has cells, less one row. -/
theorem readline_shows_line {t : Terminal} (textMode : t.fb.ok = false) (prompt : List (BitVec 8)) (positive : 1 ≤ max)
    (fits : max ≤ vgaH * vgaW - vgaW + 1) (newline : UserLibc.getchar (stream k) = '\n'.toNat)
    (before : ∀ j < k, UserLibc.getchar (stream j) ≠ '\n'.toNat) {fuel : ℕ} (enough : k < fuel) (m : Memory)
    (buf : ℕ) :
    (readline stream buf max fuel).Ensures m (fun _ => False) (Span buf max.toNat) fun r m' =>
      m'.Holds buf (editedLine stream max k ++ [0]) ∧ r.echo = echoed stream max k ++ [ch '\n'] ∧
        ∀ j ≤ k, ∃ p, ShowsPage t.terminalColor ((t.clear.write prompt).write (echoed stream max j)) p ∧
          Page.Typed (vgaStyle t.terminalColor) (blankPage.write (vgaStyle t.terminalColor) prompt) (max - 1).toNat
            (editedLine stream max j) p := by
  have base := (ShowsPage.clear textMode).write prompt
  have blank : blankPage.Fresh (vgaStyle t.terminalColor) := fun _ _ => rfl
  have fresh := blank.write (ShowsPage.clear textMode).inside prompt
  have room : ((editedLine stream max 0).length : ℤ) ≤ max - 1 := by
    rw [show (editedLine stream max 0).length = 0 from rfl]
    omega
  have empty : m.Holds buf (editedLine stream max 0) := trivial
  rw [← Nat.zero_add k] at newline before
  have both := (readlineFrom_ensures empty room newline before enough).and
    (readlineFrom_echoes room newline before enough)
  rw [Nat.zero_add] at both before
  apply both.mono (fun _ good => good) (fun _ good => good)
  rintro r m' ⟨⟨-, -, -, holds⟩, echo⟩
  refine ⟨holds, echo, fun j earlier => ⟨_, base.write _, ?_⟩⟩
  apply echoed_typed base.inside fresh
  · simp only [vgaW, vgaH] at *
    omega
  · omega
  · exact fun i first => before i (Nat.lt_of_lt_of_le first earlier)

end Screen

/-- The prompt of the shell, its line of 128 characters, and the keys of `typed`. -/
theorem readline_shows_line_sample :
    (readline typed 0x1000 128 7).Ensures (fun _ => 0xFF) (fun _ => False) (Span 0x1000 128) fun r m' =>
      m'.Holds 0x1000 (editedLine typed 128 6 ++ [0]) ∧ r.echo = echoed typed 128 6 ++ [ch '\n'] ∧
        ∀ j ≤ 6, ∃ p, ShowsPage 7 ((sampleGreyTerminal.clear.write [ch '>', ch ' ']).write (echoed typed 128 j)) p ∧
          Page.Typed (vgaStyle 7) (blankPage.write (vgaStyle 7) [ch '>', ch ' ']) (128 - 1 : ℤ).toNat
            (editedLine typed 128 j) p :=
  @readline_shows_line typed 6 128 sampleGreyTerminal rfl [ch '>', ch ' '] (by decide) (by decide) (by decide)
    (by decide) 7 (by decide) (fun _ => 0xFF) 0x1000

end RaryOS.Soundness
