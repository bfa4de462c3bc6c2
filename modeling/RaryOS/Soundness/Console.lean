import RaryOS.Core.FifoRing
import RaryOS.Core.Path
import RaryOS.Model.Console
import RaryOS.Soundness.SyscallError
import RaryOS.Soundness.TerminalPage

/-! # Programs read what is typed

Characters are typed between the system calls of a program, in any order with them. What its reads deliver is what
was typed, in this order and each character once, and a read takes all that there is, up to the length asked for.
-/

namespace RaryOS.Soundness

open RaryOS.Core RaryOS.Model

/-- The characters in the buffer, the oldest first. -/
def unread (b : InputBuffer) : List ℕ :=
  (List.range ((b.head + inputBufferSize - b.tail) % inputBufferSize)).map fun k =>
    b.buffer ((b.tail + k) % inputBufferSize)

inductive ConsoleEvent where
  | typed (c : ℕ)
  | tick
  | program (m : Memory)
  | call (before : Console) (r : Regs) (after : Console) (r' : Regs)

/-- The effect of the call has this code. -/
def Asks (op : BitVec 32) (r : Regs) : Prop := r.rax.setWidth 32 = op

instance (op : BitVec 32) (r : Regs) : Decidable (Asks op r) := inferInstanceAs (Decidable (_ = _))

namespace ConsoleEvent

def char : ConsoleEvent → Option ℕ
  | typed c => some c
  | _ => none

/-- What a read stores in the program's buffer. -/
def delivered : ConsoleEvent → List (BitVec 8)
  | call _ r after r' => if Asks effRead r then programBytes after.memory r.rdi r'.rax.toNat else []
  | _ => []

/-- A read comes back with as much as there is, up to the length. -/
def Served : ConsoleEvent → Prop
  | call before r _ r' => Asks effRead r →
    unread before.input ≠ [] ∧ r'.rax.toNat = min r.rsi.toNat (unread before.input).length
  | _ => True

end ConsoleEvent

/-- A character is typed, the timer ticks, the program changes its memory, or a system call is made and returns. -/
inductive ConsoleStep (fill : Memory → BitVec 64 → Memory) : Console → ConsoleEvent → Console → Prop
  | typed (w : Console) {c : ℕ} : c < 2 ^ 8 → ConsoleStep fill w (.typed c) { w with input := inputPush w.input c }
  | tick (w : Console) : ConsoleStep fill w .tick { w with pitTicks := w.pitTicks + 1 }
  | program (w : Console) (m : Memory) : ConsoleStep fill w (.program m) { w with memory := m }
  | call {w w' : Console} {r r' : Regs} :
      exceptionHandler (defaultHandlers (Console.services fill)) w r = some (w', r') →
      ConsoleStep fill w (.call w r w' r') w'

/-- What was typed, and what reads delivered. -/
def typedChars (es : List ConsoleEvent) : List ℕ := es.filterMap ConsoleEvent.char
def deliveredBytes (es : List ConsoleEvent) : List (BitVec 8) := es.flatMap ConsoleEvent.delivered

/-- The program never leaves more than 255 characters unread. -/
def KeepsUp (es : List ConsoleEvent) : Prop :=
  ∀ done, done <+: es → (typedChars done).length ≤ (deliveredBytes done).length + 255

/-- A character as a byte of the program's memory. -/
def charByte (c : ℕ) : BitVec 8 := BitVec.ofNat 8 c

/-! ## The buffer -/

/-- The buffer holds the accepted characters that were not removed. -/
structure Queue (b : InputBuffer) (accepted : List ℕ) (removed : ℕ) : Prop where
  ring : FifoRing 256 b.buffer accepted removed
  head : b.head = accepted.length % 256
  tail : b.tail = removed % 256

namespace Queue

variable {b : InputBuffer} {accepted : List ℕ} {removed : ℕ}

theorem init (b : InputBuffer) : Queue (inputInit b) [] 0 := ⟨.empty (by decide) b.buffer, rfl, rfl⟩

theorem available_iff (queue : Queue b accepted removed) : inputAvailable b = true ↔ removed < accepted.length := by
  have le := queue.ring.le
  rw [inputAvailable, decide_eq_true_iff, queue.head, queue.tail, Ne, queue.ring.empty_iff]
  omega

theorem unread_eq (queue : Queue b accepted removed) : unread b = accepted.drop removed := by
  have le := queue.ring.le
  have room := queue.ring.room
  have count : (b.head + inputBufferSize - b.tail) % inputBufferSize = accepted.length - removed := by
    rw [queue.head, queue.tail, inputBufferSize]
    omega
  rw [unread, count]
  apply List.ext_getElem
  · rw [List.length_map, List.length_range, List.length_drop]
  · intro k inside _
    rw [List.length_map, List.length_range] at inside
    rw [List.getElem_map, List.getElem_range, List.getElem_drop, queue.tail, inputBufferSize, Nat.mod_add_mod]
    exact queue.ring.stored (removed + k) (by omega) (Nat.le_add_right _ _)

theorem push (queue : Queue b accepted removed) (c : ℕ) :
    (accepted.length = removed + 255 ∧ Queue (inputPush b c) accepted removed) ∨
      (accepted.length < removed + 255 ∧ Queue (inputPush b c) (accepted ++ [c]) removed) := by
  have next : (b.head + 1) % inputBufferSize = (accepted.length + 1) % 256 := by
    rw [queue.head, inputBufferSize, Nat.mod_add_mod]
  have room := queue.ring.room
  rw [inputPush, next, queue.tail]
  rcases em (accepted.length + 1 = removed + 256) with full | free
  · rw [if_pos (queue.ring.full_iff.mpr full)]
    exact Or.inl ⟨by omega, queue⟩
  · rw [if_neg fun same => free (queue.ring.full_iff.mp same), queue.head]
    refine Or.inr ⟨by omega, queue.ring.push free c, ?_, rfl⟩
    rw [List.length_append, List.length_singleton]

theorem pop (queue : Queue b accepted removed) (nonempty : removed < accepted.length) :
    ∃ b', inputPop b = (b', ((accepted[removed] % 2 ^ 8 : ℕ) : ℤ)) ∧ Queue b' accepted (removed + 1) := by
  have other : ¬b.head = b.tail := of_decide_eq_true (queue.available_iff.mpr nonempty)
  have first : b.buffer b.tail = accepted[removed] := by
    rw [queue.tail]
    exact queue.ring.stored removed nonempty le_rfl
  refine ⟨{ b with tail := (b.tail + 1) % inputBufferSize }, ?_, queue.ring.pop nonempty, queue.head, ?_⟩
  · rw [inputPop, if_neg other, first]
  · change (b.tail + 1) % inputBufferSize = (removed + 1) % 256
    rw [queue.tail, inputBufferSize, Nat.mod_add_mod]

end Queue

/-! ## The calls -/

theorem bytesAt_snoc {m : Memory} {p : BitVec 64} {n : ℕ} (small : n < 2 ^ 64) (byte : BitVec 8) :
    programBytes (m.store8 (p + BitVec.ofNat 64 n).toNat byte) p (n + 1) = programBytes m p n ++ [byte] := by
  rw [programBytes, programBytes, List.range_succ, List.map_append, List.map_singleton, Memory.store8_apply_same]
  congr 1
  apply List.map_congr_left
  intro k inside
  rw [List.mem_range] at inside
  apply Memory.store8_apply_of_ne
  rw [BitVec.toNat_add, BitVec.toNat_add, BitVec.toNat_ofNat, BitVec.toNat_ofNat]
  have below := p.isLt
  omega

theorem readInput_terminal (buf : BitVec 64) (left : ℕ) (w : Console) (got : ℕ) :
    (Console.readInput buf left w got).1.terminal = w.terminal := by
  induction left generalizing w got with
  | zero => rfl
  | succ left ih =>
    rw [Console.readInput]
    split
    · exact ih _ _
    · rfl

/-- The loop takes the first characters of the queue. -/
theorem readInput_takes {accepted : List ℕ} {buf : BitVec 64} {left : ℕ} {w : Console} {removed got : ℕ}
    (queue : Queue w.input accepted removed) (small : got + (accepted.length - removed) < 2 ^ 64) :
    ∃ w', Console.readInput buf left w got = (w', got + ((accepted.drop removed).take left).length) ∧
      Queue w'.input accepted (removed + ((accepted.drop removed).take left).length) ∧
      programBytes w'.memory buf (got + ((accepted.drop removed).take left).length) =
        programBytes w.memory buf got ++ ((accepted.drop removed).take left).map charByte := by
  induction left generalizing w removed got with
  | zero =>
    rw [List.take_zero]
    exact ⟨w, rfl, queue, (List.append_nil _).symm⟩
  | succ left ih =>
    rw [Console.readInput]
    rcases Nat.lt_or_ge removed accepted.length with more | done
    · obtain ⟨b, popped, rest⟩ := queue.pop more
      rw [if_pos (queue.available_iff.mpr more), popped, List.drop_eq_getElem_cons more, List.take_succ_cons]
      dsimp only
      have byte : BitVec.ofInt 8 ((accepted[removed] % 2 ^ 8 : ℕ) : ℤ) = charByte accepted[removed] := by
        rw [BitVec.ofInt_natCast, charByte]
        apply BitVec.eq_of_toNat_eq
        rw [BitVec.toNat_ofNat, BitVec.toNat_ofNat, Nat.mod_mod]
      rw [byte]
      obtain ⟨w', reads, queue', bytes⟩ := @ih
        { w with input := b, memory := w.memory.store8 (buf + BitVec.ofNat 64 got).toNat (charByte accepted[removed]) }
        (removed + 1) (got + 1) rest (by omega)
      refine ⟨w', ?_, ?_, ?_⟩
      · rw [reads, List.length_cons]
        congr 1
        omega
      · rw [List.length_cons, show removed + (((accepted.drop (removed + 1)).take left).length + 1) =
          removed + 1 + ((accepted.drop (removed + 1)).take left).length by omega]
        exact queue'
      · rw [List.length_cons, List.map_cons, show got + (((accepted.drop (removed + 1)).take left).length + 1) =
          got + 1 + ((accepted.drop (removed + 1)).take left).length by omega, bytes, bytesAt_snoc (by omega),
          List.append_assoc, List.singleton_append]
    · rw [if_neg fun yes => absurd (queue.available_iff.mp yes) (by omega), List.drop_eq_nil_of_le done, List.take_nil]
      exact ⟨w, rfl, queue, (List.append_nil _).symm⟩

section Calls

variable {fill : Memory → BitVec 64 → Memory} {w w' : Console} {r r' : Regs}

/-- The default handlers do what the core handler does, and the program gets its result. -/
theorem core_of_returns {σ : Type*} {core : CoreServices σ} {w w' : σ}
    (returns : exceptionHandler (defaultHandlers core) w r = some (w', r')) :
    ∃ e' code, effectCoreHandler core w r.effect = some (w', e', code) ∧ r'.rax = e'.result := by
  rw [exceptionHandler] at returns
  split at returns
  · have chain : effectPerform (defaultHandlers core) w r.effect =
        performWith [effectCoreHandler core] w r.effect := rfl
    rw [chain] at returns
    cases performed : performWith [effectCoreHandler core] w r.effect with
    | none =>
      rw [performed] at returns
      cases returns
    | some outcome =>
      obtain ⟨w₁, e₁⟩ := outcome
      rw [performed] at returns
      cases returns
      rcases performWith_cons performed with ⟨_, step, _⟩ | ⟨w₂, e₂, _, step, _, _, rest⟩
      · exact ⟨_, _, step, rfl⟩
      · rw [performWith, Option.some.injEq, Prod.mk.injEq] at rest
        obtain ⟨rfl, rfl⟩ := rest
        exact ⟨_, _, step, rfl⟩
  · cases returns

/-- What a system call that returns has done. -/
theorem call_cases (returns : exceptionHandler (defaultHandlers (Console.services fill)) w r = some (w', r')) :
    (Asks effWrite r ∧ w' = w.terminalWrite r.rdi r.rsi) ∨
      (Asks effRead r ∧ inputAvailable w.input = true ∧
        ∃ got, Console.readInput r.rdi r.rsi.toNat w 0 = (w', got) ∧ r'.rax = BitVec.ofNat 64 got) ∨
      (Asks effIoctl r ∧ r.rdi = ioctlClear ∧ w' = { w with terminal := w.terminal.clear }) ∨
      (¬Asks effWrite r ∧ ¬Asks effRead r ∧ ¬(Asks effIoctl r ∧ r.rdi = ioctlClear) ∧
        ∃ m, w' = { w with memory := m }) := by
  obtain ⟨e', code, step, result⟩ := core_of_returns returns
  rw [effectCoreHandler] at step
  split at step
  · next writes =>
    cases step
    exact Or.inl ⟨writes, rfl⟩
  next notWrite =>
  split at step
  · next reads =>
    obtain ⟨⟨w₁, got⟩, read, same⟩ := Option.map_eq_some_iff.mp step
    cases same
    have read' : Console.read w r.rdi r.rsi = some (w', got) := read
    rw [Console.read] at read'
    split at read'
    · next available =>
      obtain ⟨rfl, rfl⟩ := Prod.mk.inj (Option.some.inj read')
      exact Or.inr (Or.inl ⟨reads, available, _, rfl, result⟩)
    · cases read'
  next notRead =>
  split at step
  · next controls =>
    have command : r.effect.arg0 = r.rdi := rfl
    rw [coreIoctl, command] at step
    split at step
    · next clears =>
      cases step
      exact Or.inr (Or.inr (Or.inl ⟨controls, clears, rfl⟩))
    next other =>
    refine Or.inr (Or.inr (Or.inr ⟨notWrite, notRead, fun asks => other asks.2, ?_⟩))
    split at step
    · cases step
      exact ⟨w.memory, rfl⟩
    split at step
    · cases step
    split at step
    · cases step
    split at step
    · split at step
      · cases step
        exact ⟨w.memory, rfl⟩
      · cases step
        exact ⟨_, rfl⟩
    · cases step
      exact ⟨w.memory, rfl⟩
  next notIoctl =>
  split at step
  · cases step
  · cases step
    exact Or.inr (Or.inr (Or.inr ⟨notWrite, notRead, fun asks => notIoctl asks.1, w.memory, rfl⟩))

end Calls

/-! ## A run -/

section Run

variable {fill : Memory → BitVec 64 → Memory} {w w₀ : Console} {es : List ConsoleEvent}

/-- The buffer after a run, and what the run has delivered. -/
structure ConsoleInv (es : List ConsoleEvent) (w : Console) (accepted : List ℕ) (removed : ℕ) : Prop where
  queue : Queue w.input accepted removed
  delivered : deliveredBytes es = (accepted.take removed).map charByte
  typed : accepted.Sublist (typedChars es)
  all : KeepsUp es → accepted = typedChars es
  served : ∀ e ∈ es, e.Served

theorem typedChars_snoc (es : List ConsoleEvent) (e : ConsoleEvent) :
    typedChars (es ++ [e]) = typedChars es ++ e.char.toList := by
  rw [typedChars, typedChars, List.filterMap_append]
  rfl

theorem deliveredBytes_snoc (es : List ConsoleEvent) (e : ConsoleEvent) :
    deliveredBytes (es ++ [e]) = deliveredBytes es ++ e.delivered := by
  rw [deliveredBytes, deliveredBytes, List.flatMap_append, List.flatMap_singleton]

theorem KeepsUp.before {e : ConsoleEvent} (keeps : KeepsUp (es ++ [e])) : KeepsUp es :=
  fun done before => keeps done (before.trans (List.prefix_append _ _))

/-- A step that leaves the buffer alone. -/
theorem ConsoleInv.quiet {accepted : List ℕ} {removed : ℕ} (inv : ConsoleInv es w accepted removed) {w' : Console}
    {e : ConsoleEvent} (same : w'.input = w.input) (silent : e.char = none) (nothing : e.delivered = [])
    (served : e.Served) : ConsoleInv (es ++ [e]) w' accepted removed := by
  have typed : typedChars (es ++ [e]) = typedChars es := by
    rw [typedChars_snoc, silent]
    exact List.append_nil _
  refine ⟨same ▸ inv.queue, ?_, typed ▸ inv.typed, fun keeps => typed ▸ inv.all keeps.before, ?_⟩
  · rw [deliveredBytes_snoc, nothing, List.append_nil, inv.delivered]
  · rw [List.forall_mem_append, List.forall_mem_singleton]
    exact ⟨inv.served, served⟩

theorem ConsoleInv.push {accepted : List ℕ} {removed : ℕ} (inv : ConsoleInv es w accepted removed) (c : ℕ) :
    ∃ accepted' removed', ConsoleInv (es ++ [.typed c]) { w with input := inputPush w.input c } accepted' removed' := by
  have served : ∀ e ∈ es ++ [.typed c], e.Served := by
    rw [List.forall_mem_append, List.forall_mem_singleton]
    exact ⟨inv.served, trivial⟩
  have same : deliveredBytes (es ++ [.typed c]) = deliveredBytes es := by
    rw [deliveredBytes_snoc]
    exact List.append_nil _
  have typed : typedChars (es ++ [.typed c]) = typedChars es ++ [c] := typedChars_snoc es _
  rcases inv.queue.push c with ⟨full, queue⟩ | ⟨room, queue⟩
  · refine ⟨accepted, removed, queue, same.trans inv.delivered, ?_, fun keeps => ?_, served⟩
    · rw [typed]
      exact inv.typed.trans (List.sublist_append_left _ _)
    · -- with 255 characters unread the program does not keep up
      have few := keeps _ (List.prefix_refl _)
      have le := inv.queue.ring.le
      rw [typed, ← inv.all keeps.before, same, inv.delivered, List.length_map, List.length_append,
        List.length_singleton, List.length_take] at few
      omega
  · refine ⟨accepted ++ [c], removed, queue, ?_, ?_, fun keeps => ?_, served⟩
    · rw [same, inv.delivered, List.take_append_of_le_length inv.queue.ring.le]
    · rw [typed]
      exact inv.typed.append (List.Sublist.refl _)
    · rw [typed, inv.all keeps.before]

theorem ConsoleInv.read {accepted : List ℕ} {removed : ℕ} (inv : ConsoleInv es w accepted removed) {w' : Console}
    {r r' : Regs} (asks : Asks effRead r) (available : inputAvailable w.input = true) {got : ℕ}
    (reads : Console.readInput r.rdi r.rsi.toNat w 0 = (w', got)) (result : r'.rax = BitVec.ofNat 64 got) :
    ∃ removed', ConsoleInv (es ++ [.call w r w' r']) w' accepted removed' := by
  have room := inv.queue.ring.room
  obtain ⟨w₁, taken, queue, bytes⟩ := @readInput_takes accepted r.rdi r.rsi.toNat w removed 0 inv.queue (by omega)
  rw [reads, Nat.zero_add] at taken
  obtain ⟨rfl, rfl⟩ := Prod.mk.inj taken
  rw [Nat.zero_add] at bytes
  have count : ((accepted.drop removed).take r.rsi.toNat).length = min r.rsi.toNat (accepted.drop removed).length :=
    List.length_take
  have drop : (accepted.drop removed).length = accepted.length - removed := List.length_drop
  have value : r'.rax.toNat = ((accepted.drop removed).take r.rsi.toNat).length := by
    rw [result, BitVec.toNat_ofNat]
    omega
  have delivered : (ConsoleEvent.call w r w' r').delivered =
      ((accepted.drop removed).take r.rsi.toNat).map charByte := by
    rw [ConsoleEvent.delivered, if_pos asks, value, bytes]
    rfl
  have typed : typedChars (es ++ [.call w r w' r']) = typedChars es := by
    rw [typedChars_snoc]
    exact List.append_nil _
  refine ⟨_, queue, ?_, typed ▸ inv.typed, fun keeps => typed ▸ inv.all keeps.before, ?_⟩
  · rw [deliveredBytes_snoc, delivered, inv.delivered, ← List.map_append, List.take_add, List.length_take]
    congr 2
    exact List.take_eq_take_min
  · rw [List.forall_mem_append, List.forall_mem_singleton]
    refine ⟨inv.served, fun _ => ?_⟩
    rw [inv.queue.unread_eq, value, count]
    refine ⟨fun none => ?_, rfl⟩
    have more := inv.queue.available_iff.mp available
    have zero := congrArg List.length none
    rw [drop, List.length_nil] at zero
    omega

theorem ConsoleInv.step {accepted : List ℕ} {removed : ℕ} (inv : ConsoleInv es w accepted removed) {w' : Console}
    {e : ConsoleEvent} (step : ConsoleStep fill w e w') :
    ∃ accepted' removed', ConsoleInv (es ++ [e]) w' accepted' removed' := by
  cases step with
  | typed byte => exact inv.push _
  | tick => exact ⟨accepted, removed, inv.quiet rfl rfl rfl trivial⟩
  | program m => exact ⟨accepted, removed, inv.quiet rfl rfl rfl trivial⟩
  | @call _ r r' returns =>
    have quiet (notRead : ¬Asks effRead r) (same : w'.input = w.input) :
        ConsoleInv (es ++ [.call w r w' r']) w' accepted removed :=
      inv.quiet same rfl (if_neg notRead) fun reads => absurd reads notRead
    rcases call_cases returns with ⟨writes, rfl⟩ | ⟨reads, available, got, taken, result⟩ | ⟨controls, -, rfl⟩ |
      ⟨-, notRead, -, m, rfl⟩
    · exact ⟨accepted, removed, quiet (fun reads => absurd (writes.symm.trans reads) (by decide)) rfl⟩
    · exact ⟨accepted, inv.read reads available taken result⟩
    · exact ⟨accepted, removed, quiet (fun reads => absurd (controls.symm.trans reads) (by decide)) rfl⟩
    · exact ⟨accepted, removed, quiet notRead rfl⟩

theorem consoleInv_of_run {b : InputBuffer} (empty : w₀.input = inputInit b) (run : Path (ConsoleStep fill) w₀ es w) :
    ∃ accepted removed, ConsoleInv es w accepted removed := by
  apply run.snoc_induction fun es w => ∃ accepted removed, ConsoleInv es w accepted removed
  · refine ⟨[], 0, empty ▸ .init b, rfl, List.Sublist.refl _, fun _ => rfl, List.forall_mem_nil _⟩
  · rintro es mid e t _ ⟨accepted, removed, inv⟩ step
    exact inv.step step

/-- However characters are typed between the system calls of a program: what its reads deliver, and then what is
still unread, are accepted characters in the order in which they were typed, none twice. As long as the program keeps
up, all are accepted. Each read waits for a character, and takes all that there are, up to its length. -/
theorem console_reads_typed {b : InputBuffer} (empty : w₀.input = inputInit b)
    (run : Path (ConsoleStep fill) w₀ es w) :
    (∃ accepted, accepted.Sublist (typedChars es) ∧
        deliveredBytes es ++ (unread w.input).map charByte = accepted.map charByte ∧
        (KeepsUp es → accepted = typedChars es)) ∧
      (unread w.input).length ≤ 255 ∧ ∀ e ∈ es, e.Served := by
  obtain ⟨accepted, removed, inv⟩ := consoleInv_of_run empty run
  have rest := inv.queue.unread_eq
  refine ⟨⟨accepted, inv.typed, ?_, inv.all⟩, ?_, inv.served⟩
  · rw [inv.delivered, rest, ← List.map_append, List.take_append_drop]
  · have room := inv.queue.ring.room
    rw [rest, List.length_drop]
    omega

end Run

/-- Nothing is typed yet, and a program asks for two characters at 0x1000. -/
def sampleReader : Console where
  memory := fun _ => 0
  terminal := sampleGreyTerminal
  input := inputInit {}

def readCall : Regs := ⟨2, 0x1000, 2, 0, 0, 0x80⟩

def sampleWaiting : Console :=
  { sampleReader with input := inputPush (inputPush (inputPush sampleReader.input 0x61) 0x62) 0x63 }

def sampleReceived : Console := (Console.readInput 0x1000 2 sampleWaiting 0).1

def sampleTyping : List ConsoleEvent :=
  [.typed 0x61, .typed 0x62, .typed 0x63, .call sampleWaiting readCall sampleReceived { readCall with rax := 2 }]

/-- Three characters are typed, and one read takes the first two. -/
theorem console_reads_typed_sample :
    programBytes sampleReceived.memory 0x1000 2 = [0x61, 0x62] ∧ deliveredBytes sampleTyping = [0x61, 0x62] ∧
      deliveredBytes sampleTyping ++ (unread sampleReceived.input).map charByte = [0x61, 0x62, 0x63] ∧
      ∀ e ∈ sampleTyping, e.Served := by
  have run : Path (ConsoleStep fun m _ => m) sampleReader sampleTyping sampleReceived :=
    .cons (.typed _ (by decide)) (.cons (.typed _ (by decide)) (.cons (.typed _ (by decide))
      (.cons (.call rfl) (.nil _))))
  have keeps : KeepsUp sampleTyping := fun done before =>
    (before.filterMap ConsoleEvent.char).length_le.trans ((by decide : 3 ≤ 255).trans (Nat.le_add_left _ _))
  obtain ⟨⟨accepted, _, order, all⟩, _, served⟩ := console_reads_typed (b := {}) rfl run
  rw [all keeps] at order
  exact ⟨by decide, by decide, order, served⟩

end RaryOS.Soundness
