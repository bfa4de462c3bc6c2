import RaryOS.Proofs.Input

/-! # The input buffer is a queue of 255 characters

However the pushes of interrupt handlers fall between the accesses of a reader, the calls return the
accepted characters in order, each once, and only a full queue drops a character.
-/

namespace RaryOS.Soundness

open RaryOS.Core RaryOS.Model

/-- What calls returned are the first accepted characters, at most 255 are held, a push is dropped
exactly when 255 are, and a pop that no interrupt meets returns the first character that was not
returned, if there is one. -/
structure RefinesFifo (s : InputSystem) : Prop where
  returned : s.returned <+: s.accepted
  bounded : s.accepted.length ≤ s.removed + 255
  push : ∀ c, (s.push c).accepted =
    if s.accepted.length = s.removed + 255 then s.accepted else s.accepted ++ [c]
  pop : s.reader = none → ∃ accesses t, Path InputStep s (.call .pop :: accesses) t ∧
    (∀ e ∈ accesses, ∃ tailFirst, e = .access tailFirst) ∧ t.reader = none ∧
    t.returned = s.returned ++ (s.accepted.drop s.returned.length).take 1

section Pop

variable {s : InputSystem}

/-- A run of accesses that all load the head first. -/
private inductive Accesses : InputSystem → InputSystem → Prop
  | nil (s : InputSystem) : Accesses s s
  | cons {s t : InputSystem} {pc : ReaderPc} : s.reader = some pc → Accesses (s.advance false pc) t →
      Accesses s t

private theorem Accesses.path {s t : InputSystem} (run : Accesses s t) :
    ∃ es, Path InputStep s es t ∧ ∀ e ∈ es, ∃ tailFirst, e = .access tailFirst := by
  induction run with
  | nil s => exact ⟨[], .nil s, fun e member => absurd member List.not_mem_nil⟩
  | cons here _ ih =>
    obtain ⟨es, path, accesses⟩ := ih
    refine ⟨_, .cons (.access false here) path, fun e member => ?_⟩
    rcases List.mem_cons.mp member with rfl | rest
    · exact ⟨false, rfl⟩
    · exact accesses e rest

/-- The accesses of `input_pop` together do what `inputPop` does. -/
private theorem pop_accesses (s : InputSystem) : ∃ t,
    Accesses { s with reader := some (.pop .caller) } t ∧ t.b = (inputPop s.b).1 ∧ t.reader = none ∧
      t.returned = s.returned ++ (InputResult.popped (inputPop s.b).2).chars := by
  by_cases empty : s.b.head = s.b.tail
  · have test : popTest .caller s.b.head s.b.tail = .popDone .caller (-1) := if_pos empty
    have atomic : inputPop s.b = (s.b, -1) := if_pos empty
    rw [atomic]
    refine ⟨_, .cons rfl (.cons rfl (.cons (congrArg some test) (.nil _))), rfl, rfl, ?_⟩
    simp only [InputSystem.advance, readerStep, popReturns, Sum.elim_inl, Sum.elim_inr, List.append_nil,
      Bool.false_eq_true, if_false]
  · have test : popTest .caller s.b.head s.b.tail = .popIndex .caller := if_neg empty
    have atomic : inputPop s.b = ({ s.b with tail := (s.b.tail + 1) % inputBufferSize },
        ((s.b.buffer s.b.tail % 2 ^ 8 : ℕ) : ℤ)) := if_neg empty
    rw [atomic]
    refine ⟨_, .cons rfl (.cons rfl (.cons (congrArg some test) (.cons rfl (.cons rfl (.cons rfl
      (.cons rfl (.nil _))))))), rfl, rfl, ?_⟩
    simp only [InputSystem.advance, readerStep, popReturns, Sum.elim_inl, Sum.elim_inr, List.append_nil,
      Bool.false_eq_true, if_false]

theorem refinesFifo_of_inv (inv : InputInv s) : RefinesFifo s := by
  have delivered := inv.delivered
  refine ⟨?_, ?_, fun c => ?_, fun idle => ?_⟩
  · have held : s.returned <+: s.accepted.take s.removed := by
      rw [delivered]
      exact List.prefix_append _ _
    exact held.trans (List.take_prefix _ _)
  · have := inv.ring.room
    omega
  · rcases inv.push_cases c with ⟨full, same⟩ | ⟨room, same⟩
    · rw [same, if_pos full]
    · rw [same, if_neg room]
  · obtain ⟨t, run, -, none, returned⟩ := pop_accesses s
    obtain ⟨es, path, accesses⟩ := run.path
    refine ⟨es, t, .cons (.call .pop idle) path, accesses, none, ?_⟩
    rw [idle, Option.elim_none, List.append_nil] at delivered
    have count : s.returned.length = s.removed := by
      rw [← delivered, List.length_take, Nat.min_eq_left inv.ring.le]
    rw [returned, count]
    by_cases empty : s.b.head = s.b.tail
    · have done : s.removed = s.accepted.length := inv.empty_iff.mp empty
      rw [inputPop, if_pos empty, done, List.drop_length, List.take_nil]
      rfl
    · have bound := inv.nonempty_of_ne empty
      have stored := inv.ring.stored s.removed bound (Nat.le_refl _)
      rw [← inv.tail] at stored
      have byte := inv.bytes _ (List.getElem_mem bound)
      have item : ¬((s.accepted[s.removed] : ℕ) : ℤ) = -1 := by omega
      rw [inputPop, if_neg empty, List.drop_eq_getElem_cons bound, List.take_succ_cons, List.take_zero]
      simp only [stored, Nat.mod_eq_of_lt byte, InputResult.chars, if_neg item, Int.toNat_natCast]

end Pop

/-! ## When a pop finds nothing -/

/-- Between the two states there is one in which the queue is empty. -/
def EmptyBetween (s : InputSystem) (es : List InputLabel) (t : InputSystem) : Prop :=
  ∃ first v second, es = first ++ second ∧ Path InputStep s first v ∧ Path InputStep v second t ∧ v.Empty

private theorem EmptyBetween.snoc {s t u : InputSystem} {es : List InputLabel} {e : InputLabel}
    (seen : EmptyBetween s es t) (step : InputStep t e u) : EmptyBetween s (es ++ [e]) u := by
  obtain ⟨first, v, second, rfl, before, after, empty⟩ := seen
  exact ⟨first, v, second ++ [e], List.append_assoc _ _ _, before, after.snoc step, empty⟩

private theorem EmptyBetween.now {s t : InputSystem} {es : List InputLabel}
    (path : Path InputStep s es t) (empty : t.Empty) : EmptyBetween s es t :=
  ⟨es, t, [], (List.append_nil es).symm, path, .nil t, empty⟩

/-- What the last access tells about a reader at the test of `input_pop`, and about one that returns
-1. -/
private def LeadsTo (tailFirst : Bool) (b : InputBuffer) (pc : ReaderPc) : ReaderPc → Prop
  | .popHead _ head => head = b.head ∧ (readerStep tailFirst b pc).1 = b
  | .popDone use r => r = -1 → pc = .popHead use b.tail ∨ pc = .popTail use b.head
  | _ => True

private theorem readerStep_leadsTo {tailFirst : Bool} {b : InputBuffer} {pc next : ReaderPc}
    (step : (readerStep tailFirst b pc).2 = .inl next) : LeadsTo tailFirst b pc next := by
  cases pc with
  | available use => cases tailFirst <;> cases step <;> trivial
  | availableHead use head => rcases availableReturns_inl step with ⟨use', rfl⟩ | ⟨_, rfl⟩ <;> trivial
  | availableTail use tail => rcases availableReturns_inl step with ⟨use', rfl⟩ | ⟨_, rfl⟩ <;> trivial
  | pop use =>
    cases tailFirst with
    | false =>
      cases step
      exact ⟨rfl, rfl⟩
    | true =>
      cases step
      trivial
  | popHead use head =>
    simp only [readerStep, popTest] at step
    split at step
    next same =>
      cases step
      exact fun _ => Or.inl (same ▸ rfl)
    next =>
      cases step
      trivial
  | popTail use tail =>
    simp only [readerStep, popTest] at step
    split at step
    next same =>
      cases step
      exact fun _ => Or.inr (same ▸ rfl)
    next =>
      cases step
      trivial
  | popIndex use =>
    cases step
    trivial
  | popLoad use tail =>
    cases step
    trivial
  | popNext use c =>
    cases step
    trivial
  | popStore use c tail =>
    cases step
    intro nothing
    omega
  | popDone use r =>
    obtain ⟨use', rfl⟩ := popReturns_inl step
    trivial

private theorem next_of_reader {s : InputSystem} {tailFirst : Bool} {pc pc' : ReaderPc}
    (here : (s.advance tailFirst pc).reader = some pc') : (readerStep tailFirst s.b pc).2 = .inl pc' := by
  simp only [InputSystem.advance] at here
  cases next : (readerStep tailFirst s.b pc).2 with
  | inl pc'' =>
    rw [next] at here
    exact congrArg Sum.inl (Option.some.inj here)
  | inr r =>
    rw [next] at here
    cases here

/-- A pop that returns -1 has seen an empty queue. -/
private theorem emptyBetween_of_pop {s t : InputSystem} {es : List InputLabel} {use use' : InputUse}
    (inv : InputInv s) (start : s.reader = some (.pop use)) (path : Path InputStep s es t)
    (nothing : t.reader = some (.popDone use' (-1))) : EmptyBetween s es t := by
  -- a loaded head that equals the tail was loaded while the queue was empty
  have seen := path.snoc_induction (fun es u =>
    InputInv u ∧
      (∀ use head, u.reader = some (.popHead use head) → head = u.b.tail → EmptyBetween s es u) ∧
      ∀ use, u.reader = some (.popDone use (-1)) → EmptyBetween s es u)
    ⟨inv, fun use head here => (by rw [start] at here; cases here),
      fun use here => (by rw [start] at here; cases here)⟩
    fun es mid e u before holds step => by
      obtain ⟨invMid, loaded, done⟩ := holds
      refine ⟨step.inv invMid, ?_⟩
      cases step with
      | push c byte =>
        have tail : (mid.push c).b.tail = mid.b.tail := by
          rcases invMid.push_cases c with ⟨_, same⟩ | ⟨_, same⟩ <;> rw [same]
        constructor
        · intro use head here same
          exact (loaded use head here (same.trans tail)).snoc (.push mid c byte)
        · intro use here
          exact (done use here).snoc (.push mid c byte)
      | call call idle =>
        constructor
        · intro use head here same
          cases call <;> cases here
        · intro use here
          cases call <;> cases here
      | @access pc tailFirst reader =>
        constructor
        · intro use head here same
          obtain ⟨load, stays⟩ := readerStep_leadsTo (next_of_reader here)
          have tail : (mid.advance tailFirst pc).b.tail = mid.b.tail := by
            simp only [InputSystem.advance, stays]
          have empty := invMid.empty_iff.mp ((load.symm.trans same).trans tail)
          exact (EmptyBetween.now before empty).snoc (.access tailFirst reader)
        · intro use here
          rcases readerStep_leadsTo (next_of_reader here) rfl with rfl | rfl
          · exact (loaded use _ reader rfl).snoc (.access tailFirst reader)
          · have tail := (invMid.reader _ reader).1
            exact (EmptyBetween.now before (invMid.empty_iff.mp tail)).snoc (.access tailFirst reader)
  exact seen.2.2 use' nothing

/-- From `input_init` on, the input buffer is a queue of 255 characters, and a pop that returns -1 found
it empty at some moment since it started. -/
theorem input_refines_fifo (b : InputBuffer) (es : List InputLabel) (s : InputSystem)
    (run : Path InputStep { b := inputInit b } es s) :
    RefinesFifo s ∧ ∀ use use' es' t, s.reader = some (.pop use) → Path InputStep s es' t →
      t.reader = some (.popDone use' (-1)) → EmptyBetween s es' t := by
  have inv : InputInv s := run.invariant InputInv (.init b) fun s e t inv step => step.inv inv
  refine ⟨refinesFifo_of_inv inv, fun use use' es' t start path nothing => ?_⟩
  exact emptyBetween_of_pop inv start path nothing

/-- After a character was pushed and popped, another pop starts. -/
private def popAgain : InputSystem where
  b := { buffer := Function.update (fun _ => 0) 0 97, head := 1, tail := 1 }
  reader := some (.pop .caller)
  accepted := [97]
  removed := 1
  returned := [97]

/-- It misses a character that is pushed after its first load. -/
theorem input_refines_fifo_sample :
    ∃ t, Path InputStep { b := inputInit {} }
        (.push 97 :: .call .pop :: List.replicate 7 (.access false) ++ [.call .pop]) popAgain ∧
      RefinesFifo popAgain ∧ Path InputStep popAgain [.access false, .push 98, .access false] t ∧
      EmptyBetween popAgain [.access false, .push 98, .access false] t := by
  have run : Path InputStep { b := inputInit {} }
      (.push 97 :: .call .pop :: List.replicate 7 (.access false) ++ [.call .pop]) popAgain :=
    .cons (.push _ 97 (by decide)) (.cons (.call .pop rfl) (.cons (.access false rfl)
      (.cons (.access false rfl) (.cons (.access false rfl) (.cons (.access false rfl)
      (.cons (.access false rfl) (.cons (.access false rfl) (.cons (.access false rfl)
      (.cons (.call .pop rfl) (.nil _))))))))))
  have pop : Path InputStep popAgain [.access false, .push 98, .access false] _ :=
    .cons (.access false rfl) (.cons (.push _ 98 (by decide)) (.cons (.access false rfl) (.nil _)))
  have refines := input_refines_fifo {} _ _ run
  exact ⟨_, run, refines.1, pop, refines.2 _ _ _ _ rfl pop rfl⟩

end RaryOS.Soundness
