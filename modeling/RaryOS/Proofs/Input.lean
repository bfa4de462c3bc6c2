import RaryOS.Core.FifoRing
import RaryOS.Core.Path
import RaryOS.Model.Input

/-! # The input buffer between interrupts and a reader

A system is the buffer, the reader's place in its call, and what happened so far: the accepted
characters, how many were removed, and the characters that calls returned. The invariant places the
reader's loaded values in this history.
-/

namespace RaryOS.Model

open RaryOS.Core

/-- A call of a reader. -/
inductive InputCall where
  | available
  | pop
  | read (len : ℕ)
deriving DecidableEq, Repr

def InputCall.start : InputCall → ReaderPc
  | available => .available .caller
  | pop => .pop .caller
  | read len => .available (.wait len)

/-- The characters that a call returned. -/
def InputResult.chars : InputResult → List ℕ
  | available _ => []
  | popped r => if r = -1 then [] else [r.toNat]
  | read buf => buf

structure InputSystem where
  b : InputBuffer
  reader : Option ReaderPc := none
  accepted : List ℕ := []
  removed : ℕ := 0
  returned : List ℕ := []

namespace InputSystem

/-- A push; its character is accepted if the head moves. -/
def push (s : InputSystem) (c : ℕ) : InputSystem :=
  { s with
    b := inputPush s.b c
    accepted := if (inputPush s.b c).head = s.b.head then s.accepted else s.accepted ++ [c] }

/-- An access of the reader; a character is removed if the tail moves. -/
def advance (s : InputSystem) (tailFirst : Bool) (pc : ReaderPc) : InputSystem :=
  let (b, next) := readerStep tailFirst s.b pc
  { s with
    b := b
    reader := next.elim some fun _ => none
    removed := if b.tail = s.b.tail then s.removed else s.removed + 1
    returned := s.returned ++ next.elim (fun _ => []) InputResult.chars }

/-- All accepted characters were removed. -/
def Empty (s : InputSystem) : Prop := s.removed = s.accepted.length

end InputSystem

inductive InputLabel where
  | push (c : ℕ)
  | call (call : InputCall)
  | access (tailFirst : Bool)

/-- One step: an interrupt pushes a character, the reader makes a call, or it makes an access. -/
inductive InputStep : InputSystem → InputLabel → InputSystem → Prop
  | push (s : InputSystem) (c : ℕ) : c < 2 ^ 8 → InputStep s (.push c) (s.push c)
  | call {s : InputSystem} (call : InputCall) : s.reader = none →
      InputStep s (.call call) { s with reader := some call.start }
  | access {s : InputSystem} {pc : ReaderPc} (tailFirst : Bool) : s.reader = some pc →
      InputStep s (.access tailFirst) (s.advance tailFirst pc)

/-! ## The invariant -/

/-- The characters in the buffer of `EFF_READ`. -/
def InputUse.buf : InputUse → List ℕ
  | caller => []
  | wait _ => []
  | read _ buf => buf

/-- What the reader has popped and its call has not returned. -/
def ReaderPc.held : ReaderPc → List ℕ
  | available use => use.buf
  | availableHead use _ => use.buf
  | availableTail use _ => use.buf
  | pop use => use.buf
  | popHead use _ => use.buf
  | popTail use _ => use.buf
  | popIndex use => use.buf
  | popLoad use _ => use.buf
  | popNext use _ => use.buf
  | popStore use _ _ => use.buf
  | popDone use r => use.buf ++ if r = -1 then [] else [r.toNat]

/-- Only another caller than `EFF_READ` pops without knowing that there is a character. -/
def PopMay (use : InputUse) (nonempty : Prop) : Prop := use = .caller ∨ nonempty

/-- What the reader's loaded values say, where the buffer has the given tail, holds something or not,
and `first` is its first character. -/
def ReaderPc.Sound (tail : ℕ) (nonempty : Prop) (first : ℕ → Prop) : ReaderPc → Prop
  | available _ => True
  | availableHead _ head => head = tail ∨ nonempty
  | availableTail _ loaded => loaded = tail
  | pop use => PopMay use nonempty
  | popHead use head => PopMay use (head ≠ tail) ∧ (head = tail ∨ nonempty)
  | popTail use loaded => loaded = tail ∧ PopMay use nonempty
  | popIndex _ => nonempty
  | popLoad _ loaded => loaded = tail ∧ nonempty
  | popNext _ c => first c
  | popStore _ c loaded => loaded = tail ∧ first c
  | popDone use r => (r = -1 ∧ use = .caller) ∨ (0 ≤ r ∧ r < 2 ^ 8)

structure InputInv (s : InputSystem) : Prop where
  ring : FifoRing 256 s.b.buffer s.accepted s.removed
  head : s.b.head = s.accepted.length % 256
  tail : s.b.tail = s.removed % 256
  bytes : ∀ c ∈ s.accepted, c < 2 ^ 8
  delivered : s.accepted.take s.removed = s.returned ++ s.reader.elim [] ReaderPc.held
  reader : ∀ pc, s.reader = some pc →
    pc.Sound s.b.tail (s.removed < s.accepted.length) (s.accepted[s.removed]? = some ·)

/-- What has been popped where the reader goes on, or returns. -/
def heldNext : ReaderPc ⊕ InputResult → List ℕ
  | .inl pc => pc.held
  | .inr r => r.chars

theorem heldNext_readTest (len : ℕ) (buf : List ℕ) : heldNext (readTest len buf) = buf := by
  rw [readTest]
  split <;> rfl

theorem heldNext_availableReturns (use : InputUse) (yes : Bool) :
    heldNext (availableReturns use yes) = use.buf := by
  cases use with
  | caller => rfl
  | wait len =>
    cases yes with
    | false => rfl
    | true => exact heldNext_readTest len []
  | read len buf => cases yes <;> rfl

/-- A popped character is handed on as it is. -/
theorem heldNext_popReturns {use : InputUse} {r : ℤ}
    (sound : (r = -1 ∧ use = .caller) ∨ (0 ≤ r ∧ r < 2 ^ 8)) :
    heldNext (popReturns use r) = (ReaderPc.popDone use r).held := by
  cases use with
  | caller => rfl
  | wait len => rfl
  | read len buf =>
    obtain ⟨low, high⟩ := sound.resolve_left fun none => InputUse.noConfusion none.2
    have byte : r % 2 ^ 8 = r := Int.emod_eq_of_lt low high
    have some : ¬r = -1 := by omega
    rw [popReturns, heldNext_readTest, ReaderPc.held, byte, if_neg some]
    rfl

theorem readTest_inl {len : ℕ} {buf : List ℕ} {pc : ReaderPc} (goes : readTest len buf = .inl pc) :
    pc = .available (.read len buf) := by
  rw [readTest] at goes
  split at goes
  · exact (Sum.inl.inj goes).symm
  · cases goes

/-- After `input_available` a reader pops only if there was a character. -/
theorem availableReturns_inl {use : InputUse} {yes : Bool} {pc : ReaderPc}
    (goes : availableReturns use yes = .inl pc) :
    (∃ use', pc = .available use') ∨ (yes = true ∧ pc = .pop use) := by
  cases use with
  | caller => cases goes
  | wait len =>
    cases yes with
    | false => exact Or.inl ⟨_, (Sum.inl.inj goes).symm⟩
    | true => exact Or.inl ⟨_, readTest_inl goes⟩
  | read len buf =>
    cases yes with
    | false => cases goes
    | true => exact Or.inr ⟨rfl, (Sum.inl.inj goes).symm⟩

theorem popReturns_inl {use : InputUse} {r : ℤ} {pc : ReaderPc} (goes : popReturns use r = .inl pc) :
    ∃ use', pc = .available use' := by
  cases use with
  | caller => cases goes
  | wait len => cases goes
  | read len buf => exact ⟨_, readTest_inl goes⟩

/-- What the loaded values say stays true while characters arrive. -/
theorem ReaderPc.Sound.mono {tail : ℕ} {nonempty nonempty' : Prop} {first first' : ℕ → Prop}
    {pc : ReaderPc} (sound : pc.Sound tail nonempty first) (more : nonempty → nonempty')
    (same : ∀ c, first c → first' c) : pc.Sound tail nonempty' first' := by
  cases pc with
  | available use => exact trivial
  | availableHead use head => exact sound.imp_right more
  | availableTail use loaded => exact sound
  | pop use => exact Or.imp_right more sound
  | popHead use head => exact ⟨sound.1, sound.2.imp_right more⟩
  | popTail use loaded => exact ⟨sound.1, Or.imp_right more sound.2⟩
  | popIndex use => exact more sound
  | popLoad use loaded => exact ⟨sound.1, more sound.2⟩
  | popNext use c => exact same c sound
  | popStore use c loaded => exact ⟨sound.1, same c sound.2⟩
  | popDone use r => exact sound

namespace InputInv

variable {s : InputSystem}

/-- The test for an empty buffer tells the truth. -/
theorem empty_iff (inv : InputInv s) : s.b.head = s.b.tail ↔ s.Empty := by
  rw [inv.head, inv.tail]
  exact inv.ring.empty_iff

theorem nonempty_of_ne (inv : InputInv s) (ne : s.b.head ≠ s.b.tail) : s.removed < s.accepted.length :=
  Nat.lt_of_le_of_ne inv.ring.le fun empty => ne (inv.empty_iff.mpr empty)

theorem ne_of_nonempty (inv : InputInv s) (nonempty : s.removed < s.accepted.length) : s.b.head ≠ s.b.tail :=
  fun same => Nat.ne_of_lt nonempty (inv.empty_iff.mp same)

theorem head_known (inv : InputInv s) : s.b.head = s.b.tail ∨ s.removed < s.accepted.length := by
  rcases Decidable.em (s.b.head = s.b.tail) with empty | ne
  · exact Or.inl empty
  · exact Or.inr (inv.nonempty_of_ne ne)

/-- A push is dropped exactly when 255 characters have not been removed. -/
theorem push_cases (inv : InputInv s) (c : ℕ) :
    (s.accepted.length = s.removed + 255 ∧ s.push c = s) ∨
      (s.accepted.length ≠ s.removed + 255 ∧ s.push c =
        { s with
          b := { s.b with
            buffer := Function.update s.b.buffer (s.accepted.length % 256) c
            head := (s.accepted.length + 1) % 256 }
          accepted := s.accepted ++ [c] }) := by
  have next : (s.b.head + 1) % inputBufferSize = (s.accepted.length + 1) % 256 := by
    rw [inv.head, inputBufferSize, Nat.mod_add_mod]
  have full := inv.ring.full_iff
  rw [← inv.tail] at full
  by_cases here : s.accepted.length = s.removed + 255
  · have dropped : inputPush s.b c = s.b := by
      rw [inputPush, next]
      exact if_pos (full.mpr (by omega))
    refine Or.inl ⟨here, ?_⟩
    simp only [InputSystem.push, dropped, if_true]
  · have kept : inputPush s.b c =
        { s.b with
          buffer := Function.update s.b.buffer (s.accepted.length % 256) c
          head := (s.accepted.length + 1) % 256 } := by
      rw [inputPush, next, ← inv.head]
      exact if_neg fun same => here (by have := full.mp same; omega)
    have moved : (s.accepted.length + 1) % 256 ≠ s.b.head := by
      rw [inv.head]
      omega
    refine Or.inr ⟨here, ?_⟩
    simp only [InputSystem.push, kept, if_neg moved]

theorem push (inv : InputInv s) {c : ℕ} (byte : c < 2 ^ 8) : InputInv (s.push c) := by
  rcases inv.push_cases c with ⟨_, same⟩ | ⟨room, same⟩
  · rw [same]
    exact inv
  · -- the character goes to the free slot
    have length : (s.accepted ++ [c]).length = s.accepted.length + 1 := by
      rw [List.length_append, List.length_singleton]
    rw [same]
    refine ⟨inv.ring.push (fun same => room (by omega)) c, ?_, inv.tail, fun d member => ?_, ?_, fun pc here => ?_⟩
    · exact congrArg (· % 256) length.symm
    · rcases List.mem_append.mp member with earlier | new
      · exact inv.bytes d earlier
      · rw [List.mem_singleton.mp new]
        exact byte
    · rw [List.take_append_of_le_length inv.ring.le]
      exact inv.delivered
    · refine (inv.reader pc here).mono (fun nonempty => ?_) fun d first => ?_
      · rw [length]
        exact Nat.lt_succ_of_lt nonempty
      · obtain ⟨bound, _⟩ := List.getElem?_eq_some_iff.mp first
        rw [List.getElem?_append_left bound]
        exact first

/-- An access that removes nothing. -/
theorem stays (inv : InputInv s) {pc : ReaderPc} (here : s.reader = some pc) (tailFirst : Bool)
    {next : ReaderPc ⊕ InputResult} (step : readerStep tailFirst s.b pc = (s.b, next))
    (held : heldNext next = pc.held)
    (sound : ∀ pc', next = .inl pc' → pc'.Sound s.b.tail (s.removed < s.accepted.length)
      (s.accepted[s.removed]? = some ·)) : InputInv (s.advance tailFirst pc) := by
  have delivered := inv.delivered
  rw [here, Option.elim_some, ← held] at delivered
  simp only [InputSystem.advance, step, if_true]
  refine ⟨inv.ring, inv.head, inv.tail, inv.bytes, ?_, fun pc' there => ?_⟩
  · rw [delivered]
    cases next with
    | inl pc' => exact congrArg (· ++ pc'.held) (List.append_nil _).symm
    | inr r => exact (List.append_nil _).symm
  · cases next with
    | inl pc'' => exact sound pc' (congrArg Sum.inl (Option.some.inj there))
    | inr r => cases there

/-- An access that removes nothing and behind which the reader goes on at `pc'`. -/
theorem goesOn (inv : InputInv s) {pc pc' : ReaderPc} (here : s.reader = some pc) (tailFirst : Bool)
    (step : readerStep tailFirst s.b pc = (s.b, .inl pc')) (held : pc'.held = pc.held)
    (sound : pc'.Sound s.b.tail (s.removed < s.accepted.length) (s.accepted[s.removed]? = some ·)) :
    InputInv (s.advance tailFirst pc) := by
  refine inv.stays here tailFirst step held fun pc'' goes => ?_
  obtain rfl := Sum.inl.inj goes
  exact sound

/-- The comparison of `input_pop`, with both operands. -/
theorem popTest_sound {use : InputUse} {head : ℕ} {nonempty : Prop} {first : ℕ → Prop}
    (may : PopMay use (head ≠ s.b.tail)) (known : head = s.b.tail ∨ nonempty) :
    (popTest use head s.b.tail).Sound s.b.tail nonempty first := by
  rw [popTest]
  split
  next empty => exact Or.inl ⟨rfl, may.resolve_right fun ne => ne empty⟩
  next ne => exact known.resolve_left ne

theorem popTest_held (use : InputUse) (head tail : ℕ) : (popTest use head tail).held = use.buf := by
  rw [popTest]
  split
  · exact List.append_nil _
  · rfl

/-- The one access that removes a character. -/
theorem removes (inv : InputInv s) {use : InputUse} {c loaded : ℕ}
    (here : s.reader = some (.popStore use c loaded)) (tailFirst : Bool) :
    InputInv (s.advance tailFirst (.popStore use c loaded)) := by
  obtain ⟨rfl, first⟩ := inv.reader _ here
  obtain ⟨bound, item⟩ := List.getElem?_eq_some_iff.mp first
  have tail : (s.b.tail + 1) % inputBufferSize = (s.removed + 1) % 256 := by
    rw [inv.tail, inputBufferSize, Nat.mod_add_mod]
  have moved : (s.removed + 1) % 256 ≠ s.b.tail := by
    rw [inv.tail]
    omega
  have byte : c < 2 ^ 8 := item ▸ inv.bytes _ (List.getElem_mem bound)
  have delivered := inv.delivered
  rw [here, Option.elim_some] at delivered
  simp only [InputSystem.advance, readerStep, tail, if_neg moved]
  refine ⟨inv.ring.pop bound, inv.head, rfl, inv.bytes, ?_, fun pc there => ?_⟩
  · have some : ¬(c : ℤ) = -1 := by omega
    rw [List.take_add_one, first, delivered]
    simp only [Sum.elim_inl, Option.elim_some, ReaderPc.held, if_neg some, List.append_nil,
      List.append_assoc, Option.toList_some, Int.toNat_natCast, Nat.mod_eq_of_lt byte]
  · rw [Sum.elim_inl, Option.some.injEq] at there
    rw [← there]
    exact Or.inr ⟨by omega, by omega⟩

/-- Every access of the reader keeps the invariant. -/
theorem access (inv : InputInv s) {pc : ReaderPc} (here : s.reader = some pc) (tailFirst : Bool) :
    InputInv (s.advance tailFirst pc) := by
  have sound := inv.reader pc here
  cases pc with
  | available use =>
    apply inv.goesOn here tailFirst rfl (by cases tailFirst <;> rfl)
    cases tailFirst with
    | false => exact inv.head_known
    | true => exact rfl
  | availableHead use head =>
    apply inv.stays here tailFirst rfl (heldNext_availableReturns _ _)
    intro pc' goes
    rcases availableReturns_inl goes with ⟨use', rfl⟩ | ⟨yes, rfl⟩
    · exact trivial
    · exact Or.inr (sound.resolve_left (of_decide_eq_true yes))
  | availableTail use loaded =>
    apply inv.stays here tailFirst rfl (heldNext_availableReturns _ _)
    intro pc' goes
    rcases availableReturns_inl goes with ⟨use', rfl⟩ | ⟨yes, rfl⟩
    · exact trivial
    · have ne : s.b.head ≠ loaded := of_decide_eq_true yes
      rw [sound] at ne
      exact Or.inr (inv.nonempty_of_ne ne)
  | pop use =>
    apply inv.goesOn here tailFirst rfl (by cases tailFirst <;> rfl)
    cases tailFirst with
    | false => exact ⟨sound.imp_right inv.ne_of_nonempty, inv.head_known⟩
    | true => exact ⟨rfl, sound⟩
  | popHead use head =>
    apply inv.goesOn here tailFirst rfl (popTest_held _ _ _)
    exact popTest_sound sound.1 sound.2
  | popTail use loaded =>
    obtain ⟨rfl, may⟩ := sound
    apply inv.goesOn here tailFirst rfl (popTest_held _ _ _)
    exact popTest_sound (may.imp_right inv.ne_of_nonempty) inv.head_known
  | popIndex use =>
    apply inv.goesOn here tailFirst rfl rfl
    exact ⟨rfl, sound⟩
  | popLoad use loaded =>
    obtain ⟨rfl, nonempty⟩ := sound
    apply inv.goesOn here tailFirst rfl rfl
    have stored := inv.ring.stored s.removed nonempty (Nat.le_refl _)
    rw [← inv.tail] at stored
    exact (List.getElem?_eq_getElem nonempty).trans (congrArg some stored.symm)
  | popNext use c =>
    apply inv.goesOn here tailFirst rfl rfl
    exact ⟨rfl, sound⟩
  | popStore use c loaded => exact inv.removes here tailFirst
  | popDone use r =>
    apply inv.stays here tailFirst rfl (heldNext_popReturns sound)
    intro pc' goes
    obtain ⟨use', rfl⟩ := popReturns_inl goes
    exact trivial

/-- A call starts with nothing held. -/
theorem call (inv : InputInv s) (call : InputCall) (idle : s.reader = none) :
    InputInv { s with reader := some call.start } := by
  have delivered := inv.delivered
  rw [idle, Option.elim_none] at delivered
  refine ⟨inv.ring, inv.head, inv.tail, inv.bytes, ?_, fun pc here => ?_⟩
  · rw [Option.elim_some, delivered]
    cases call <;> rfl
  · rw [Option.some.injEq] at here
    rw [← here]
    cases call with
    | available => exact trivial
    | pop => exact Or.inl rfl
    | read len => exact trivial

end InputInv

theorem InputStep.inv {s t : InputSystem} {label : InputLabel} (step : InputStep s label t)
    (inv : InputInv s) : InputInv t := by
  cases step with
  | push c byte => exact inv.push byte
  | call call idle => exact inv.call call idle
  | access tailFirst here => exact inv.access here tailFirst

/-- After `input_init`, whatever the buffer holds. -/
theorem InputInv.init (b : InputBuffer) : InputInv { b := inputInit b } where
  ring := .empty (by decide) _
  head := rfl
  tail := rfl
  bytes _ member := absurd member List.not_mem_nil
  delivered := rfl
  reader _ here := by cases here

end RaryOS.Model
