import RaryOS.Core.Words
import RaryOS.Model.Shell

/-! # The arguments that tokenize cuts out

Each round of the loop takes the separators and the first word off what is left of the line. It overwrites the
separator behind the word, which no later round comes back to.
-/

namespace RaryOS.Soundness

open RaryOS.Core RaryOS.Model RaryOS.Model.Shell

/-- The arguments of a call: the slots from `argc` on point to the words, which lie terminated in the memory, and
behind them is a null pointer. -/
structure Arguments (m : Memory) (argv argv' : Argv) (p argc n : ℕ) (taken : List (ℕ × List (BitVec 8))) : Prop where
  count : n = argc + taken.length
  word : ∀ j w, taken[j]? = some w → argv'.slot (argc + j) = p + w.1 ∧ m.Holds (p + w.1) (w.2 ++ [0])
  last : argv'.slot n = 0
  others : ∀ j, j < argc ∨ n < j → argv'.slot j = argv.slot j
  writes : argv'.writes = argv.writes ++ List.range' argc (taken.length + 1)

section Tokenize

variable {m : Memory} {p argc fuel rounds : ℕ} {max : ℤ} {argv argv' : Argv}

/-- No argument is left, or there is no room for one. -/
theorem Arguments.none (m : Memory) (argv : Argv) (p argc : ℕ) :
    Arguments m argv (argv.set argc 0) p argc argc [] where
  count := rfl
  word j w found := by rw [List.getElem?_nil] at found; cases found
  last := if_pos rfl
  others j outside := if_neg (by omega)
  writes := rfl

/-- The same arguments, counted from an earlier place. -/
theorem Arguments.shift {n d : ℕ} {taken : List (ℕ × List (BitVec 8))}
    (arguments : Arguments m argv argv' (p + d) argc n taken) :
    Arguments m argv argv' p argc n (shiftWords d taken) where
  count := by rw [arguments.count, length_shiftWords]
  word j w found := by
    rw [shiftWords, List.getElem?_map] at found
    obtain ⟨v, member, rfl⟩ := Option.map_eq_some_iff.mp found
    obtain ⟨slot, text⟩ := arguments.word j v member
    rw [Nat.add_assoc] at slot text
    exact ⟨slot, text⟩
  last := arguments.last
  others := arguments.others
  writes := by rw [arguments.writes, length_shiftWords]

/-- One more argument in front: its slot is set before the others, which lie further on. -/
theorem Arguments.cons {d n : ℕ} {word : List (BitVec 8)} {taken : List (ℕ × List (BitVec 8))}
    (rest : Arguments m (argv.set argc p) argv' (p + d) (argc + 1) n taken) (holds : m.Holds p (word ++ [0])) :
    Arguments m argv argv' p argc n ((0, word) :: shiftWords d taken) where
  count := by rw [rest.count, List.length_cons, length_shiftWords, Nat.add_right_comm, Nat.add_assoc]
  word j w found := by
    rcases j with _ | j
    · rw [List.getElem?_cons_zero] at found
      obtain rfl := Option.some.inj found
      rw [Nat.add_zero, rest.others argc (Or.inl (Nat.lt_succ_self argc))]
      exact ⟨if_pos rfl, holds⟩
    · rw [List.getElem?_cons_succ] at found
      obtain ⟨slot, text⟩ := rest.shift.word j w found
      refine ⟨?_, text⟩
      rw [show argc + (j + 1) = argc + 1 + j by omega, slot]
  last := rest.last
  others j outside := by
    have count := rest.count
    rw [rest.others j (by omega)]
    exact if_neg (by omega)
  writes := by
    have range : List.range' argc (taken.length + 1 + 1) = argc :: List.range' (argc + 1) (taken.length + 1) :=
      List.range'_succ ..
    rw [rest.writes, List.length_cons, length_shiftWords, range, Argv.set, List.append_assoc, List.singleton_append]

/-! ## The two scans -/

section Scans

variable {word tail : List (BitVec 8)}

/-- The separators in front of a word or of the end. -/
theorem skipBlanks_ensures {front : List (BitVec 8)} (holds : m.Holds p (front ++ (word ++ (tail ++ [0]))))
    (separate : ∀ c ∈ front, isBlank c = true) (solid : ∀ c ∈ word, isBlank c = false) (ended : word = [] → tail = [])
    (enough : front.length < fuel) :
    (skipBlanks fuel p).Ensures m (Span p (front.length + 1)) (fun _ => False)
      fun q m' => q = p + front.length ∧ m' = m := by
  rw [← List.append_assoc word] at holds
  refine Prog.Ensures.skipWhile_string holds separate ?_ (by decide) enough
  intro c others first
  rcases word with _ | ⟨d, inner⟩
  · rw [ended rfl] at first
    cases first
  · obtain ⟨rfl, -⟩ := List.cons.inj first
    exact solid d (List.mem_cons_self ..)

/-- A word, up to a separator or the end. -/
theorem skipWord_ensures (holds : m.Holds p (word ++ (tail ++ [0]))) (nonzero : 0 ∉ word)
    (solid : ∀ c ∈ word, isBlank c = false) (ends : tail = [] ∨ ∃ c rest, isBlank c = true ∧ tail = c :: rest)
    (enough : word.length < fuel) :
    (skipWord fuel p).Ensures m (Span p (word.length + 1)) (fun _ => False)
      fun q m' => q = p + word.length ∧ m' = m := by
  refine Prog.Ensures.skipWhile_string holds ?_ ?_ (by decide) enough
  · intro d member
    rw [solid d member, Bool.not_false, Bool.and_true, bne_iff_ne]
    exact ne_of_mem_of_not_mem member nonzero
  · intro c others first
    rcases ends with rfl | ⟨d, rest, separates, rfl⟩
    · cases first
    · obtain ⟨rfl, -⟩ := List.cons.inj first
      rw [separates, Bool.not_true, Bool.and_false]

/-- The word at `p` is cut off. What is left of the line begins `d` further on, behind the terminator of the word
unless nothing is left. -/
structure CutOff (m : Memory) (p : ℕ) (word tail : List (BitVec 8)) (d : ℕ) (left : List (BitVec 8)) : Prop where
  text : m.Holds p (word ++ [0])
  holds : m.Holds (p + d) (left ++ [0])
  nonzero : 0 ∉ left
  behind : word.length + min 1 left.length ≤ d
  inside : d + left.length ≤ word.length + tail.length
  parts : words isBlank (word ++ tail) = (0, word) :: shiftWords d (words isBlank left)

/-- A round from a word on: the byte behind the word is overwritten, and `next` goes on behind it. -/
theorem cutOff_ensures {α : Type} {next : ℕ → Prog α} {post : α → Memory → Prop}
    (holds : m.Holds p (word ++ (tail ++ [0]))) (nonzero : 0 ∉ word ++ tail) (nonempty : word ≠ [])
    (solid : ∀ c ∈ word, isBlank c = false) (ends : tail = [] ∨ ∃ c rest, isBlank c = true ∧ tail = c :: rest)
    (enough : word.length < fuel)
    (rest : ∀ m' d left, CutOff m' p word tail d left → (next (p + d)).Ensures m'
      (Span p (word.length + tail.length + 1)) (Span p (word.length + tail.length)) post) :
    (skipWord fuel p >>= fun q => Prog.read q >>= fun c =>
      if c ≠ 0 then Prog.write q 0 >>= fun _ => next (q + 1) else next q).Ensures m
        (Span p (word.length + tail.length + 1)) (Span p (word.length + tail.length)) post := by
  rw [List.mem_append, not_or] at nonzero
  apply Prog.Ensures.bind _ ((skipWord_ensures holds nonzero.1 solid ends enough).mono
    (fun _ => Span.widen le_rfl (by omega)) (fun _ never => never.elim) fun _ _ post => post)
  rintro _ m ⟨rfl, rfl⟩
  apply Prog.Ensures.read_bind ⟨by omega, by omega⟩
  rw [Memory.holds_append] at holds
  obtain ⟨inWord, atTail⟩ := holds
  rcases ends with rfl | ⟨c, others, separates, rfl⟩
  · have zero : m (p + word.length) = 0 := atTail.1
    rw [if_neg (not_not.mpr zero)]
    refine rest m word.length [] ⟨(Memory.holds_append _ _).mpr ⟨inWord, atTail⟩, atTail, List.not_mem_nil,
      le_rfl, le_rfl, ?_⟩
    rw [List.append_nil]
    exact words_word nonempty solid
  · rw [if_pos (atTail.first_ne_zero nonzero.2 (List.cons_ne_nil _ _))]
    rw [List.mem_cons, not_or] at nonzero
    rw [List.length_cons] at rest ⊢
    apply Prog.Ensures.write_bind ⟨by omega, by omega⟩
    have behind : (m.store8 (p + word.length) 0).Holds (p + (word.length + 1)) (others ++ [0]) := by
      apply atTail.2.congr
      intro k bound
      exact m.store8_apply_of_ne 0 (by omega)
    exact rest _ (word.length + 1) others ⟨inWord.store8_snoc 0, behind, nonzero.2.2, by omega,
      by rw [List.length_cons]; omega, words_word_cons nonempty solid separates⟩

/-- The rounds behind a word leave the word as it is, and add its argument in front of theirs. -/
theorem CutOff.argument {x : Prog (ℕ × Argv)} {left : List (BitVec 8)} {d k : ℕ} (cut : CutOff m p word tail d left)
    (rounds : x.Ensures m (Span (p + d) (left.length + 1)) (Span (p + d) left.length)
      fun r m' => Arguments m' (argv.set argc p) r.2 (p + d) (argc + 1) r.1 ((words isBlank left).take k)) :
    x.Ensures m (Span p (word.length + tail.length + 1)) (Span p (word.length + tail.length))
      fun r m' => Arguments m' argv r.2 p argc r.1 ((words isBlank (word ++ tail)).take (k + 1)) := by
  have behind := cut.behind
  have inside := cut.inside
  apply rounds.framed.mono
  · exact fun _ => Span.widen (by omega) (by omega)
  · exact fun _ => Span.widen (by omega) (by omega)
  · rintro r m' ⟨rest, unchanged⟩
    have kept : m'.Holds p (word ++ [0]) := by
      apply cut.text.congr
      intro k bound
      rw [List.length_append, List.length_singleton] at bound
      apply unchanged
      rintro ⟨lower, upper⟩
      omega
    rw [cut.parts, List.take_succ_cons, shiftWords, ← List.map_take, ← shiftWords]
    exact rest.cons kept

end Scans

/-! ## The loop -/

/-- The loop, with `rest` of the line left. -/
theorem tokenizeFrom_ensures {rest : List (BitVec 8)} (holds : m.Holds p (rest ++ [0])) (nonzero : 0 ∉ rest)
    (enough : rest.length < fuel) (enoughRounds : rest.length < rounds) :
    (tokenizeFrom max fuel rounds argv argc p).Ensures m (Span p (rest.length + 1)) (Span p rest.length)
      fun r m' => Arguments m' argv r.2 p argc r.1 ((words isBlank rest).take (max - 1 - argc).toNat) := by
  induction rounds generalizing m rest argv argc p with
  | zero => exact absurd enoughRounds (Nat.not_lt_zero _)
  | succ rounds ih =>
    rw [tokenizeFrom]
    apply Prog.Ensures.read_bind ⟨le_rfl, by omega⟩
    rcases Decidable.em (rest = []) with rfl | nonempty
    · have ended : m p = 0 := holds.1
      rw [if_neg (not_not.mpr ended), words_nil, List.take_nil]
      exact .pure (Arguments.none m argv p argc)
    rw [if_pos (holds.first_ne_zero nonzero nonempty)]
    obtain ⟨front, word, tail, rfl, separate, solid, empty, ends⟩ := exists_first_word isBlank rest
    rw [List.append_assoc, List.append_assoc] at holds
    rw [List.mem_append, not_or] at nonzero
    rw [List.length_append, List.length_append] at enough enoughRounds ⊢
    apply Prog.Ensures.bind _ ((skipBlanks_ensures holds separate solid empty (by omega)).mono
      (fun _ => Span.widen le_rfl (by omega)) (fun _ never => never.elim) fun _ _ post => post)
    rintro _ m ⟨rfl, rfl⟩
    apply Prog.Ensures.read_bind ⟨by omega, by omega⟩
    rw [words_blanks separate]
    replace holds := ((Memory.holds_append _ _).mp holds).2
    rcases Decidable.em (word = []) with rfl | solidWord
    · obtain rfl := empty rfl
      have zero : m (p + front.length) = 0 := holds.1
      have nothing : shiftWords front.length (words isBlank ([] ++ [])) = [] := rfl
      rw [if_pos zero, nothing, List.take_nil]
      exact .pure (Arguments.none m argv p argc)
    have inWord : 0 ∉ word := fun member => nonzero.2 (List.mem_append_left _ member)
    rw [if_neg (holds.first_ne_zero inWord solidWord)]
    split
    · next full =>
      rw [show (max - 1 - argc).toNat = 0 by omega, List.take_zero]
      exact .pure (Arguments.none m argv p argc)
    · next free =>
      have room : (max - 1 - argc).toNat = (max - 1 - (argc + 1 : ℕ)).toNat + 1 := by omega
      have positive : 0 < word.length := List.length_pos_of_ne_nil solidWord
      have round : ∀ m' d left, CutOff m' (p + front.length) word tail d left →
          (tokenizeFrom max fuel rounds (argv.set argc (p + front.length)) (argc + 1) (p + front.length + d)).Ensures m'
            (Span (p + front.length) (word.length + tail.length + 1))
            (Span (p + front.length) (word.length + tail.length))
            fun r m' => Arguments m' argv r.2 (p + front.length) argc r.1
              ((words isBlank (word ++ tail)).take (max - 1 - argc).toNat) := by
        intro m' d left cut
        have behind := cut.behind
        have inside := cut.inside
        rw [room]
        exact cut.argument (ih cut.holds cut.nonzero (by omega) (by omega))
      apply (cutOff_ensures holds nonzero.2 solidWord solid ends (by omega) round).mono
      · exact fun _ => Span.widen (by omega) (by omega)
      · exact fun _ => Span.widen (by omega) (by omega)
      · intro r m' arguments
        rw [shiftWords, ← List.map_take, ← shiftWords]
        exact arguments.shift

/-- For every terminated line and every `max` of at least 1: `tokenize` ends, stays inside the line, and returns the
number of words, or `max - 1` if there are more. The slots up to it point to these words, which are terminated in
place; the next slot is null, and no other slot is written. -/
theorem tokenize_splits {line : List (BitVec 8)} (positive : 1 ≤ max) (buf : ℕ) (holds : m.Holds buf (line ++ [0]))
    (nonzero : 0 ∉ line) (enough : line.length < fuel) (slot : ℕ → ℕ) :
    (tokenize buf slot max fuel).Ensures m (Span buf (line.length + 1)) (Span buf line.length) fun r m' =>
      (r.1 : ℤ) = min ((words isBlank line).length : ℤ) (max - 1) ∧
        (∀ j < r.1, ∃ w, (words isBlank line)[j]? = some w ∧ r.2.slot j = buf + w.1 ∧
          m'.Holds (buf + w.1) (w.2 ++ [0])) ∧
        r.2.slot r.1 = 0 ∧ (∀ j, r.1 < j → r.2.slot j = slot j) ∧ r.2.writes = List.range (r.1 + 1) := by
  apply (tokenizeFrom_ensures holds nonzero enough enough).mono (fun _ good => good) (fun _ good => good)
  rintro r m' arguments
  have count := arguments.count
  rw [List.length_take, Nat.zero_add] at count
  refine ⟨by omega, ?_, arguments.last, fun j behind => arguments.others j (Or.inr behind), ?_⟩
  · intro j inside
    have found : j < (words isBlank line).length := by omega
    have taken : ((words isBlank line).take (max - 1 - (0 : ℕ)).toNat)[j]? = some (words isBlank line)[j] := by
      rw [List.getElem?_take_of_lt (by omega), List.getElem?_eq_getElem found]
    obtain ⟨points, text⟩ := arguments.word j _ taken
    rw [Nat.zero_add] at points
    exact ⟨_, List.getElem?_eq_getElem found, points, text⟩
  · rw [arguments.writes, List.nil_append, List.range_eq_range', arguments.count, Nat.zero_add]

end Tokenize

/-- A line with two words and room for one of them. -/
def command : List (BitVec 8) := [ch ' ', ch 'c', ch 'd', ch ' ', ch '\t', ch 'a']

theorem tokenize_splits_sample :
    words isBlank command = [(1, [ch 'c', ch 'd']), (5, [ch 'a'])] ∧
      (tokenize 0x1000 (fun _ => 7) 2 7).Ensures (fun address => command.getD (address - 0x1000) 0) (Span 0x1000 7)
        (Span 0x1000 6) fun r m' =>
          (r.1 : ℤ) = min ((words isBlank command).length : ℤ) (2 - 1) ∧
            (∀ j < r.1, ∃ w, (words isBlank command)[j]? = some w ∧ r.2.slot j = 0x1000 + w.1 ∧
              m'.Holds (0x1000 + w.1) (w.2 ++ [0])) ∧
            r.2.slot r.1 = 0 ∧ (∀ j, r.1 < j → r.2.slot j = 7) ∧ r.2.writes = List.range (r.1 + 1) :=
  ⟨by decide, tokenize_splits (by decide) 0x1000 (by decide) (by decide) (by decide) fun _ => 7⟩

end RaryOS.Soundness
