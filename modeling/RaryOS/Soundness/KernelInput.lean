import RaryOS.Proofs.Input
import RaryOS.Soundness.Input
import RaryOS.Soundness.IrqRuns
import RaryOS.Soundness.KeyStretches

/-! # From the keyboards to a reader

The kernel's interrupts come in any order between the accesses of a reader. What is typed on the two keyboards goes
into one queue in the order of the interrupts, and each timer and each controller gets what its own interrupts bring.
-/

namespace RaryOS.Soundness

open RaryOS.Core RaryOS.Model

/-- The handlers that `kernel_main`, `usb_init` and `lapic_timer_init` register, in this order. -/
def kernelIrqs (s : IrqState KernelHandler KernelWorld) : IrqState KernelHandler KernelWorld :=
  let s := (irqRegister (irqInit s) 32 .pit "PIT").1
  let s := (irqRegister s 33 .ps2Keyboard "PS/2").1
  let s := (irqRegister s 0x40 .usb "xHCI").1
  (irqRegister s 48 .lapicTimer "LAPIC Timer").1

/-- The handler of a vector. -/
def kernelHandlerOf (v : BitVec 8) : Option KernelHandler :=
  if v = 32 then some .pit
  else if v = 33 then some .ps2Keyboard
  else if v = 0x40 then some .usb
  else if v = 48 then some .lapicTimer
  else none

/-- The kernel, the USB controller's place in the event ring, and a reader of the input buffer. -/
structure InterruptSystem where
  irq : IrqState KernelHandler KernelWorld
  producer : RingProducer
  reader : Option ReaderPc := none
  returned : List ℕ := []

namespace InterruptSystem

def xhci (s : InterruptSystem) : Xhci := s.irq.world.xhci

/-- The devices act, then an interrupt is dispatched. -/
def interrupt (s : InterruptSystem) (world : KernelWorld) (vector : BitVec 64) : InterruptSystem :=
  { s with irq := irqDispatch KernelHandler.run { s.irq with world } vector }

/-- The USB controller posts an event and interrupts. -/
def post (s : InterruptSystem) (x : Xhci) (e : Trb) : InterruptSystem :=
  let posted := ({ x, producer := s.producer } : EventSystem).post e
  { s.interrupt { s.irq.world with xhci := posted.x } 0x40 with producer := posted.producer }

/-- An access of the reader. -/
def advance (s : InterruptSystem) (tailFirst : Bool) (pc : ReaderPc) : InterruptSystem :=
  let (input, next) := readerStep tailFirst s.xhci.input pc
  { s with
    irq := { s.irq with world := { s.irq.world with xhci := { s.xhci with input } } }
    reader := next.elim some fun _ => none
    returned := s.returned ++ next.elim (fun _ => []) InputResult.chars }

end InterruptSystem

/-- An interrupt that comes with a scancode, with a completed transfer of the USB keyboard, with another event of
the USB controller or with nothing that a keyboard sent; or a step of the reader. -/
inductive KernelEvent where
  | scancode (c : BitVec 8)
  | completion (c : Completion)
  | posted (e : Trb)
  | other (vector : BitVec 64)
  | call (call : InputCall)
  | access (tailFirst : Bool)

/-- One step of the kernel. The handlers run with interrupts disabled. -/
inductive InterruptStep : InterruptSystem → KernelEvent → InterruptSystem → Prop
  | scancode (s : InterruptSystem) (c : BitVec 8) :
      InterruptStep s (.scancode c) (s.interrupt { s.irq.world with port60 := c } 33)
  | completion (s : InterruptSystem) (c : Completion) : s.xhci.IsKeyboard c.event →
      InterruptStep s (.completion c) (s.post { s.xhci with intrBuf := c.buffer s.xhci.intrBuf } c.event)
  | posted (s : InterruptSystem) (e : Trb) : e.Expected → ¬s.xhci.IsKeyboard e →
      InterruptStep s (.posted e) (s.post s.xhci e)
  | other (s : InterruptSystem) (vector : BitVec 64) : vector.setWidth 8 ≠ (33 : BitVec 8) →
      vector.setWidth 8 ≠ (0x40 : BitVec 8) → InterruptStep s (.other vector) (s.interrupt s.irq.world vector)
  | call {s : InterruptSystem} (call : InputCall) : s.reader = none →
      InterruptStep s (.call call) { s with reader := some call.start }
  | access {s : InterruptSystem} {pc : ReaderPc} (tailFirst : Bool) : s.reader = some pc →
      InterruptStep s (.access tailFirst) (s.advance tailFirst pc)

/-! ## What is typed -/

/-- The character of a scancode. -/
def scancodeChars (c : BitVec 8) : List ℕ := (keyboardMap[c.toNat]?.filter (· ≠ 0)).toList

namespace KernelEvent

/-- The characters that an event types, when the USB keyboard reported these keys before. -/
def typed (prev : List ℕ) : KernelEvent → List ℕ
  | scancode c => scancodeChars c
  | completion c => (newItems mappedKey prev c.keys).map hidKeyToAscii
  | posted _ => []
  | other _ => []
  | call _ => []
  | access _ => []

/-- The keys that the USB keyboard has reported. -/
def keys (prev : List ℕ) : KernelEvent → List ℕ
  | scancode _ => prev
  | completion c => c.keys
  | posted _ => prev
  | other _ => prev
  | call _ => prev
  | access _ => prev

/-- The step of the reader. -/
def reads : KernelEvent → List InputLabel
  | scancode _ => []
  | completion _ => []
  | posted _ => []
  | other _ => []
  | call c => [.call c]
  | access tailFirst => [.access tailFirst]

end KernelEvent

/-- What a run types. -/
def typedBy (prev : List ℕ) : List KernelEvent → List ℕ
  | [] => []
  | e :: es => e.typed prev ++ typedBy (e.keys prev) es

/-- A run as the input buffer sees it. -/
def inputLabels (prev : List ℕ) : List KernelEvent → List InputLabel
  | [] => []
  | e :: es => (e.typed prev).map .push ++ e.reads ++ inputLabels (e.keys prev) es

theorem ps2KeyboardHandler_eq (input : InputBuffer) (c : BitVec 8) :
    ps2KeyboardHandler input c = (scancodeChars c).foldl inputPush input := by
  have entries : keyboardMap.length = 58 := by decide
  rcases Nat.lt_or_ge c.toNat 58 with inside | outside
  · have entry : keyboardMap[c.toNat]? = some (keyboardMap.getD c.toNat 0) := by
      rw [List.getD_eq_getElem?_getD, List.getElem?_eq_getElem (entries ▸ inside), Option.getD_some]
    rw [ps2KeyboardHandler, if_neg (by omega), scancodeChars, entry]
    rcases Nat.eq_zero_or_pos c.toNat with zero | positive
    · rw [zero]
      rfl
    rw [if_pos ⟨positive, inside⟩]
    dsimp only
    split
    · rename_i char
      rw [Option.filter_some, if_pos (decide_eq_true char)]
      rfl
    · rename_i char
      rw [Option.filter_some, if_neg fun yes => char (of_decide_eq_true yes)]
      rfl
  · have none : keyboardMap[c.toNat]? = none := List.getElem?_eq_none_iff.mpr (entries ▸ outside)
    rw [ps2KeyboardHandler, scancodeChars, none]
    split
    · rfl
    · rw [if_neg fun both => absurd both.2 (Nat.not_lt.mpr outside)]
      rfl

theorem scancodeChars_bytes {c : BitVec 8} : ∀ char ∈ scancodeChars c, char < 2 ^ 8 := by
  have bytes : ∀ char ∈ keyboardMap, char < 2 ^ 8 := by decide
  intro char member
  have entry := Option.mem_toList.mp member
  exact bytes char (List.mem_of_getElem? (Option.filter_eq_some_iff.mp entry).1)

theorem hidKeyToAscii_byte (k : ℕ) : hidKeyToAscii k < 2 ^ 8 := by
  rw [hidKeyToAscii.eq_def]
  split
  · omega
  split
  · omega
  split <;> decide

namespace KernelEvent

theorem typed_bytes (e : KernelEvent) (prev : List ℕ) : ∀ char ∈ e.typed prev, char < 2 ^ 8 := by
  intro char member
  cases e with
  | scancode c => exact scancodeChars_bytes char member
  | completion c =>
    obtain ⟨k, _, rfl⟩ := List.mem_map.mp member
    exact hidKeyToAscii_byte k
  | posted e => exact absurd member List.not_mem_nil
  | other vector => exact absurd member List.not_mem_nil
  | call call => exact absurd member List.not_mem_nil
  | access tailFirst => exact absurd member List.not_mem_nil

end KernelEvent

/-! ## The kernel follows the input buffer's system -/

/-- The entries of the interrupt table have the kernel's handlers. -/
def InterruptSystem.Handlers (s : InterruptSystem) : Prop := ∀ v, (s.irq.table v).handler = kernelHandlerOf v

theorem kernelIrqs_entry (s : IrqState KernelHandler KernelWorld) (v : BitVec 8) :
    ((kernelIrqs s).table v).handler = kernelHandlerOf v ∧ ((kernelIrqs s).table v).count = 0 := by
  rw [kernelHandlerOf]
  rcases em (v = 48) with rfl | lapic
  · exact ⟨rfl, rfl⟩
  rcases em (v = 0x40) with rfl | usb
  · exact ⟨rfl, rfl⟩
  rcases em (v = 33) with rfl | keyboard
  · exact ⟨rfl, rfl⟩
  rcases em (v = 32) with rfl | pit
  · exact ⟨rfl, rfl⟩
  rw [if_neg pit, if_neg keyboard, if_neg usb, if_neg lapic]
  have entry : (kernelIrqs s).table v = {} :=
    (if_neg lapic).trans ((if_neg usb).trans ((if_neg keyboard).trans (if_neg pit)))
  rw [entry]
  exact ⟨rfl, rfl⟩

/-- The vectors that no keyboard uses. -/
theorem kernelHandlerOf_other {v : BitVec 8} (ps2 : v ≠ 33) (usb : v ≠ 0x40) :
    v = 32 ∧ kernelHandlerOf v = some .pit ∨ v = 48 ∧ kernelHandlerOf v = some .lapicTimer ∨
      v ≠ 32 ∧ v ≠ 48 ∧ kernelHandlerOf v = none := by
  rw [kernelHandlerOf, if_neg ps2, if_neg usb]
  rcases em (v = 32) with rfl | notPit
  · exact Or.inl ⟨rfl, rfl⟩
  rcases em (v = 48) with rfl | notLapic
  · exact Or.inr (Or.inl ⟨rfl, rfl⟩)
  rw [if_neg notPit, if_neg notLapic]
  exact Or.inr (Or.inr ⟨notPit, notLapic, rfl⟩)

namespace InterruptSystem

variable {s : InterruptSystem} {world : KernelWorld} {vector : BitVec 64}

theorem interrupt_handlers (handlers : s.Handlers) (world : KernelWorld) (vector : BitVec 64) :
    (s.interrupt world vector).Handlers := by
  intro v
  rw [interrupt, irqDispatch_table, ← handlers v]
  split <;> rfl

theorem interrupt_handled (handlers : s.Handlers) (world : KernelWorld) {h : KernelHandler}
    (handler : kernelHandlerOf (vector.setWidth 8) = some h) :
    (s.interrupt world vector).irq.world = (h.run world).1 ∧
      (s.interrupt world vector).irq.writes = s.irq.writes ++ irqEoi (vector.setWidth 8) ++ (h.run world).2 :=
  irqDispatch_handled ((handlers _).trans handler)

theorem interrupt_unhandled (handlers : s.Handlers) (world : KernelWorld)
    (handler : kernelHandlerOf (vector.setWidth 8) = none) :
    (s.interrupt world vector).irq.world = world ∧
      (s.interrupt world vector).irq.writes = s.irq.writes ++ irqEoi (vector.setWidth 8) := by
  have unhandled : (({ s.irq with world } : IrqState KernelHandler KernelWorld).table (vector.setWidth 8)).handler =
      none := (handlers _).trans handler
  rw [interrupt, irqDispatch_unhandled unhandled]
  exact ⟨rfl, rfl⟩

end InterruptSystem

/-- The kernel between two events: the event ring is drained, and the USB keyboard has reported these keys. -/
structure KernelInv (prev : List ℕ) (s : InterruptSystem) : Prop where
  handlers : s.Handlers
  ring : ∃ base posted, EventInv base ⟨s.xhci, s.producer, posted, posted⟩
  prevKeys : s.xhci.prevKeys = prev
  intrBuf : s.xhci.intrBuf = fun _ => 0
  active : 0 < s.xhci.usbActiveSlot

/-- The input buffer's system has the buffer and the reader of the kernel. -/
structure Follows (t : InputSystem) (s : InterruptSystem) : Prop where
  b : t.b = s.xhci.input
  reader : t.reader = s.reader
  returned : t.returned = s.returned

/-- The characters are pushed one after the other. -/
theorem pushes {chars : List ℕ} (bytes : ∀ char ∈ chars, char < 2 ^ 8) (t : InputSystem) :
    ∃ t', Path InputStep t (chars.map .push) t' ∧ t'.b = chars.foldl inputPush t.b ∧ t'.reader = t.reader ∧
      t'.returned = t.returned := by
  induction chars generalizing t with
  | nil => exact ⟨t, .nil t, rfl, rfl, rfl⟩
  | cons char rest ih =>
    rw [List.forall_mem_cons] at bytes
    obtain ⟨t', path, b, reader, returned⟩ := ih bytes.2 (t.push char)
    exact ⟨t', .cons (.push t char bytes.1) path, b, reader, returned⟩

/-- Where only characters are pushed. -/
theorem Follows.typed {s s' : InterruptSystem} {t : InputSystem} (follows : Follows t s) (e : KernelEvent)
    (prev : List ℕ) (input : s'.xhci.input = (e.typed prev).foldl inputPush s.xhci.input)
    (reader : s'.reader = s.reader)
    (returned : s'.returned = s.returned) (silent : e.reads = []) :
    ∃ t', Path InputStep t ((e.typed prev).map .push ++ e.reads) t' ∧ Follows t' s' := by
  obtain ⟨t', path, b, sameReader, sameReturned⟩ := pushes (e.typed_bytes prev) t
  rw [silent, List.append_nil]
  refine ⟨t', path, ?_, (sameReader.trans follows.reader).trans reader.symm,
    (sameReturned.trans follows.returned).trans returned.symm⟩
  rw [b, follows.b, input]

/-- Where the driver keeps everything but the input buffer. -/
theorem KernelInv.of_input {prev : List ℕ} {s s' : InterruptSystem} (inv : KernelInv prev s) (handlers : s'.Handlers)
    {input : InputBuffer} (driver : s'.xhci = { s.xhci with input }) (producer : s'.producer = s.producer) :
    KernelInv prev s' := by
  obtain ⟨base, posted, ring⟩ := inv.ring
  refine ⟨handlers, ⟨base, posted, ?_⟩, ?_, ?_, ?_⟩
  · rw [driver, producer]
    exact ring.congr rfl rfl rfl rfl
  all_goals rw [driver]
  · exact inv.prevKeys
  · exact inv.intrBuf
  · exact inv.active

/-- An interrupt of the USB controller. -/
theorem KernelInv.post {prev : List ℕ} {s : InterruptSystem} (inv : KernelInv prev s) {x : Xhci} {e : Trb}
    (ring : ∃ base posted, EventInv base ⟨x, s.producer, posted, posted⟩) (expected : e.Expected) :
    (s.post x e).Handlers ∧
      (s.post x e).xhci = (({ x, producer := s.producer } : EventSystem).post e).x.handleInterrupt ∧
      ∃ base posted, EventInv base ⟨(s.post x e).xhci, (s.post x e).producer, posted, posted⟩ := by
  obtain ⟨base, posted, ring⟩ := ring
  obtain ⟨_, _, _, _, _, _, _, drained⟩ := interrupt_of_one ring rfl expected
  have handler : kernelHandlerOf ((0x40 : BitVec 64).setWidth 8) = some .usb := rfl
  have handled : (s.post x e).xhci = (({ x, producer := s.producer } : EventSystem).post e).x.handleInterrupt :=
    congrArg KernelWorld.xhci (InterruptSystem.interrupt_handled inv.handlers _ handler).1
  refine ⟨InterruptSystem.interrupt_handlers inv.handlers _ _, handled, base, ?_⟩
  rw [handled]
  exact drained

/-- One step of the kernel. -/
theorem InterruptStep.follows {prev : List ℕ} {s s' : InterruptSystem} {e : KernelEvent} (step : InterruptStep s e s')
    (inv : KernelInv prev s) {t : InputSystem} (follows : Follows t s) :
    KernelInv (e.keys prev) s' ∧
      ∃ t', Path InputStep t ((e.typed prev).map .push ++ e.reads) t' ∧ Follows t' s' := by
  cases step with
  | scancode c =>
    have handler : kernelHandlerOf ((33 : BitVec 64).setWidth 8) = some .ps2Keyboard := rfl
    have handlers := InterruptSystem.interrupt_handlers inv.handlers { s.irq.world with port60 := c } 33
    have world := (InterruptSystem.interrupt_handled inv.handlers { s.irq.world with port60 := c } handler).1
    have driver := congrArg KernelWorld.xhci world
    have input := (congrArg Xhci.input driver).trans (ps2KeyboardHandler_eq _ _)
    exact ⟨inv.of_input handlers driver rfl, follows.typed (.scancode c) prev input rfl rfl rfl⟩
  | completion c mine =>
    obtain ⟨base, posted, ring⟩ := inv.ring
    have filled := (EventStep.transfer ⟨s.xhci, s.producer, posted, posted⟩ (c.buffer s.xhci.intrBuf)).inv ring
    have expected : c.event.Expected := .inl mine.1
    have handled := interrupt_keyboard filled rfl expected mine inv.active
    obtain ⟨handlers, driver, drained⟩ := inv.post ⟨base, posted, filled⟩ expected
    have keys : reportKeys (c.buffer s.xhci.intrBuf) = c.keys := by rw [inv.intrBuf, Completion.keys]
    have new := handled.pushed.trans (congrArg (newItems mappedKey s.xhci.prevKeys) keys)
    have input : (s.post { s.xhci with intrBuf := c.buffer s.xhci.intrBuf } c.event).xhci.input =
        ((KernelEvent.completion c).typed prev).foldl inputPush s.xhci.input := by
      rw [KernelEvent.typed, List.foldl_map, ← inv.prevKeys, ← new, driver]
      exact handled.input
    refine ⟨⟨handlers, drained, ?_, ?_, ?_⟩, follows.typed (.completion c) prev input rfl rfl rfl⟩
    · rw [driver]
      exact handled.prevKeys.trans keys
    · rw [driver]
      exact handled.intrBuf
    · rw [driver]
      exact Nat.lt_of_lt_of_eq inv.active handled.usbActiveSlot.symm
  | posted e expected other =>
    obtain ⟨base, posted, ring⟩ := inv.ring
    obtain ⟨same, _⟩ := interrupt_other ring rfl expected other
    obtain ⟨handlers, driver, drained⟩ := inv.post ⟨base, posted, ring⟩ expected
    have input : (s.post s.xhci e).xhci.input = s.xhci.input := by
      rw [driver]
      exact same.input
    refine ⟨⟨handlers, drained, ?_, ?_, ?_⟩, follows.typed (.posted e) prev input rfl rfl rfl⟩
    · rw [driver]
      exact same.prevKeys.trans inv.prevKeys
    · rw [driver]
      exact same.intrBuf.trans inv.intrBuf
    · rw [driver]
      exact Nat.lt_of_lt_of_eq inv.active same.usbActiveSlot.symm
  | other vector ps2 usb =>
    have handlers := InterruptSystem.interrupt_handlers inv.handlers s.irq.world vector
    have driver : (s.interrupt s.irq.world vector).xhci = s.xhci := by
      rcases kernelHandlerOf_other ps2 usb with ⟨_, pit⟩ | ⟨_, lapic⟩ | ⟨_, _, none⟩
      · have world := (InterruptSystem.interrupt_handled inv.handlers s.irq.world pit).1
        have driver := congrArg KernelWorld.xhci world
        exact driver
      · have world := (InterruptSystem.interrupt_handled inv.handlers s.irq.world lapic).1
        have driver := congrArg KernelWorld.xhci world
        exact driver
      · exact congrArg KernelWorld.xhci (InterruptSystem.interrupt_unhandled inv.handlers _ none).1
    have keeps : (s.interrupt s.irq.world vector).xhci = { s.xhci with input := s.xhci.input } := driver
    exact ⟨inv.of_input handlers keeps rfl,
      follows.typed (.other vector) prev (congrArg Xhci.input driver) rfl rfl rfl⟩
  | call call idle =>
    exact ⟨⟨inv.handlers, inv.ring, inv.prevKeys, inv.intrBuf, inv.active⟩,
      _, .cons (.call call (follows.reader.trans idle)) (.nil _), follows.b, rfl, follows.returned⟩
  | access tailFirst here =>
    refine ⟨inv.of_input inv.handlers rfl rfl,
      _, .cons (.access tailFirst (follows.reader.trans here)) (.nil _), ?_, ?_, ?_⟩
    all_goals simp only [InputSystem.advance, InterruptSystem.advance, follows.b, follows.returned]
    rfl

/-- A run of the kernel. -/
theorem kernel_follows {prev : List ℕ} {s s' : InterruptSystem} {es : List KernelEvent}
    (run : Path InterruptStep s es s') (inv : KernelInv prev s) {t : InputSystem} (follows : Follows t s) :
    ∃ t', Path InputStep t (inputLabels prev es) t' ∧ Follows t' s' := by
  induction run generalizing prev t with
  | nil => exact ⟨t, .nil t, follows⟩
  | cons step _ ih =>
    obtain ⟨inv', mid, first, here⟩ := step.follows inv follows
    obtain ⟨t', rest, done⟩ := ih inv' here
    exact ⟨t', first.append rest, done⟩

/-- The characters that are pushed. -/
def pushedChars (labels : List InputLabel) : List ℕ :=
  labels.filterMap fun
    | .push c => some c
    | .call _ => none
    | .access _ => none

theorem pushedChars_inputLabels (prev : List ℕ) (es : List KernelEvent) :
    pushedChars (inputLabels prev es) = typedBy prev es := by
  induction es generalizing prev with
  | nil => rfl
  | cons e es ih =>
    have pushed : pushedChars ((e.typed prev).map .push) = e.typed prev := by
      rw [pushedChars, List.filterMap_map]
      exact List.filterMap_some
    have silent : pushedChars e.reads = [] := by
      cases e <;> rfl
    rw [inputLabels, typedBy, ← ih, pushedChars, List.filterMap_append, List.filterMap_append]
    rw [pushedChars] at pushed silent
    rw [pushed, silent, List.append_nil]
    rfl

/-- What a run of the input buffer accepts are pushed characters in their order, and all of them if at most 255
characters come. -/
theorem accepted_of_path {t t' : InputSystem} {labels : List InputLabel} (run : Path InputStep t labels t')
    (inv : InputInv t) :
    ∃ more, t'.accepted = t.accepted ++ more ∧ more.Sublist (pushedChars labels) ∧
      (t.accepted.length + (pushedChars labels).length ≤ 255 → more = pushedChars labels) := by
  induction run with
  | nil t => exact ⟨[], (List.append_nil _).symm, List.Sublist.refl _, fun _ => rfl⟩
  | @cons t mid t' label labels step _ ih =>
    obtain ⟨more, accepted, sub, all⟩ := ih (step.inv inv)
    cases step with
    | push c byte =>
      have here : pushedChars (.push c :: labels) = c :: pushedChars labels := rfl
      rw [here, List.length_cons]
      rcases inv.push_cases c with ⟨full, same⟩ | ⟨_, same⟩
      · rw [same] at accepted
        exact ⟨more, accepted, sub.cons c, fun few => absurd full (by omega)⟩
      · rw [same, List.append_assoc] at accepted
        refine ⟨c :: more, accepted, sub.cons_cons c, fun few => congrArg (c :: ·) (all ?_)⟩
        rw [same, List.length_append, List.length_singleton]
        omega
    | call call idle => exact ⟨more, accepted, sub, all⟩
    | access tailFirst here => exact ⟨more, accepted, sub, all⟩

/-- Interrupts of the timers, of both keyboards and of other devices come in any order between the accesses of a
reader, from the moment that the keyboards are set up. The reader sees a queue of 255 characters into which goes
what is typed, in the order of the interrupts: the characters of the scancodes, and of the keys that a report has
and the one before it had not. Nothing is typed twice or out of order, and at most 255 characters are never lost. -/
theorem keyboards_reach_reader {s₀ : IrqState KernelHandler KernelWorld} {producer : RingProducer} {b : InputBuffer}
    (armed : KeyboardArmed s₀.world.xhci producer) (empty : s₀.world.xhci.input = inputInit b)
    {es : List KernelEvent} {s : InterruptSystem} (run : Path InterruptStep ⟨kernelIrqs s₀, producer, none, []⟩ es s) :
    ∃ t, Path InputStep { b := inputInit b } (inputLabels (List.replicate 6 0) es) t ∧ RefinesFifo t ∧
      t.b = s.xhci.input ∧ t.reader = s.reader ∧ t.returned = s.returned ∧
      t.accepted.Sublist (typedBy (List.replicate 6 0) es) ∧
      ((typedBy (List.replicate 6 0) es).length ≤ 255 → t.accepted = typedBy (List.replicate 6 0) es) := by
  have inv : KernelInv (List.replicate 6 0) ⟨kernelIrqs s₀, producer, none, []⟩ :=
    ⟨fun v => (kernelIrqs_entry s₀ v).1, armed.ring, armed.prevKeys, armed.intrBuf, armed.active⟩
  obtain ⟨t, path, follows⟩ := kernel_follows run inv (t := { b := inputInit b }) ⟨empty.symm, rfl, rfl⟩
  have sound : InputInv t := path.invariant InputInv (.init b) fun s e t inv step => step.inv inv
  obtain ⟨more, accepted, sub, all⟩ := accepted_of_path path (.init b)
  rw [pushedChars_inputLabels] at sub all
  rw [List.nil_append] at accepted
  rw [← accepted] at sub all
  refine ⟨t, path, refinesFifo_of_inv sound, follows.b, follows.reader, follows.returned, sub, fun few => all ?_⟩
  rw [List.length_nil, Nat.zero_add]
  exact few

/-- The key `a` of the PS/2 keyboard, a timer, the key `b` of the USB keyboard, and a call of the reader. -/
theorem keyboards_reach_reader_sample :
    ∃ (s : InterruptSystem) (t : InputSystem),
      t.b = s.xhci.input ∧ t.reader = some (.pop .caller) ∧ t.accepted = [97, 98] ∧
        Path InterruptStep ⟨kernelIrqs ⟨fun _ => {}, [], { xhci := sampleKeyboard }⟩, {}, none, []⟩
          [.scancode 0x1E, .other 48, .completion (sampleCompletion 1 5), .call .pop] s := by
  have run : Path InterruptStep ⟨kernelIrqs ⟨fun _ => {}, [], { xhci := sampleKeyboard }⟩, {}, none, []⟩
      [.scancode 0x1E, .other 48, .completion (sampleCompletion 1 5), .call .pop] _ :=
    .cons (.scancode _ _) (.cons (.other _ _ (by decide) (by decide)) (.cons (.completion _ _ ⟨rfl, rfl⟩)
      (.cons (.call .pop rfl) (.nil _))))
  obtain ⟨t, _, _, b, reader, _, _, all⟩ := keyboards_reach_reader (b := {}) sampleKeyboard_armed rfl run
  exact ⟨_, t, b, reader, all (by decide), run⟩

/-! ## Ticks, counts and acknowledgements -/

/-- The vector of an interrupt. -/
def KernelEvent.vector : KernelEvent → Option (BitVec 8)
  | scancode _ => some 33
  | completion _ => some 0x40
  | posted _ => some 0x40
  | other vector => some (vector.setWidth 8)
  | call _ => none
  | access _ => none

/-- What is written to the interrupt controllers for a vector. The local APIC's timer is acknowledged by its handler
too. -/
def kernelAcks (v : BitVec 8) : List DeviceWrite :=
  irqEoi v ++ if v = 48 then [.mmio lapicEoiRegister 0] else []

theorem InterruptSystem.interrupt_effect {s : InterruptSystem} (handlers : s.Handlers) (world : KernelWorld)
    (vector : BitVec 64) :
    (s.interrupt world vector).irq.world.pitTicks =
        world.pitTicks + (if vector.setWidth 8 = (32 : BitVec 8) then 1 else 0) ∧
      (s.interrupt world vector).irq.world.lapicTicks =
        world.lapicTicks + (if vector.setWidth 8 = (48 : BitVec 8) then 1 else 0) ∧
      (s.interrupt world vector).irq.writes = s.irq.writes ++ kernelAcks (vector.setWidth 8) := by
  rw [kernelAcks, ← List.append_assoc]
  generalize is : vector.setWidth 8 = v
  have handled {h : KernelHandler} (handler : kernelHandlerOf v = some h) :=
    interrupt_handled handlers world (is ▸ handler : kernelHandlerOf (vector.setWidth 8) = some h)
  rcases em (v = 33) with rfl | ps2
  · obtain ⟨after, writes⟩ := handled rfl
    rw [after, writes, is]
    exact ⟨(BitVec.add_zero _).symm, (BitVec.add_zero _).symm, rfl⟩
  rcases em (v = 0x40) with rfl | usb
  · obtain ⟨after, writes⟩ := handled rfl
    rw [after, writes, is]
    exact ⟨(BitVec.add_zero _).symm, (BitVec.add_zero _).symm, rfl⟩
  rcases kernelHandlerOf_other ps2 usb with ⟨rfl, pit⟩ | ⟨rfl, lapic⟩ | ⟨notPit, notLapic, none⟩
  · obtain ⟨after, writes⟩ := handled pit
    rw [after, writes, is]
    exact ⟨rfl, (BitVec.add_zero _).symm, rfl⟩
  · obtain ⟨after, writes⟩ := handled lapic
    rw [after, writes, is]
    exact ⟨(BitVec.add_zero _).symm, rfl, rfl⟩
  · obtain ⟨after, writes⟩ := interrupt_unhandled handlers world (is ▸ none)
    rw [after, writes, is, if_neg notPit, if_neg notLapic, if_neg notLapic]
    exact ⟨(BitVec.add_zero _).symm, (BitVec.add_zero _).symm, (List.append_nil _).symm⟩

/-- The kernel after interrupts with these vectors. -/
structure Counted (s₀ : IrqState KernelHandler KernelWorld) (vectors : List (BitVec 8)) (s : InterruptSystem) :
    Prop where
  handlers : s.Handlers
  pitTicks : s.irq.world.pitTicks = s₀.world.pitTicks + BitVec.ofNat 64 (vectors.count 32)
  lapicTicks : s.irq.world.lapicTicks = s₀.world.lapicTicks + BitVec.ofNat 64 (vectors.count 48)
  counts : ∀ v, irqGetCount s.irq v =
    if (kernelHandlerOf v).isSome then BitVec.ofNat 64 (vectors.count v) else 0
  writes : s.irq.writes = s₀.writes ++ vectors.flatMap kernelAcks

theorem ofNat_count_concat (vectors : List (BitVec 8)) (v w : BitVec 8) :
    BitVec.ofNat 64 ((vectors ++ [w]).count v) = BitVec.ofNat 64 (vectors.count v) + (if w = v then 1 else 0) := by
  rw [List.count_append, List.count_singleton, BitVec.ofNat_add]
  congr 1
  rcases em (w = v) with same | other
  · rw [if_pos (beq_iff_eq.mpr same), if_pos same]
    rfl
  · rw [if_neg (mt beq_iff_eq.mp other), if_neg other]
    rfl

/-- The devices leave the ticks to the timers' handlers. -/
theorem Counted.interrupt {s₀ : IrqState KernelHandler KernelWorld} {vectors : List (BitVec 8)} {s : InterruptSystem}
    (counted : Counted s₀ vectors s) (world : KernelWorld) (pit : world.pitTicks = s.irq.world.pitTicks)
    (lapic : world.lapicTicks = s.irq.world.lapicTicks) (vector : BitVec 64) :
    Counted s₀ (vectors ++ [vector.setWidth 8]) (s.interrupt world vector) := by
  obtain ⟨pitTicks, lapicTicks, writes⟩ := InterruptSystem.interrupt_effect counted.handlers world vector
  refine ⟨InterruptSystem.interrupt_handlers counted.handlers world vector, ?_, ?_, fun v => ?_, ?_⟩
  · rw [pitTicks, pit, counted.pitTicks, ofNat_count_concat, BitVec.add_assoc]
  · rw [lapicTicks, lapic, counted.lapicTicks, ofNat_count_concat, BitVec.add_assoc]
  · have count : (s.irq.table v).count = _ := counted.counts v
    have handler : (s.irq.table v).handler = _ := counted.handlers v
    rw [InterruptSystem.interrupt, irqGetCount, irqDispatch_table, handler, ofNat_count_concat]
    rcases em ((kernelHandlerOf v).isSome = true) with some | none
    · rw [if_pos some] at count ⊢
      rcases em (vector.setWidth 8 = v) with same | other
      · rw [if_pos ⟨same, some⟩, if_pos same, count]
      · rw [if_neg (fun both => other both.1), if_neg other, count]
        exact (BitVec.add_zero _).symm
    · rw [if_neg none] at count ⊢
      rw [if_neg (fun both => none both.2)]
      exact count
  · rw [writes, counted.writes, List.flatMap_append, List.append_assoc, List.flatMap_singleton]

theorem Counted.step {s₀ : IrqState KernelHandler KernelWorld} {vectors : List (BitVec 8)} {s s' : InterruptSystem}
    {e : KernelEvent} (counted : Counted s₀ vectors s) (step : InterruptStep s e s') :
    Counted s₀ (vectors ++ e.vector.toList) s' := by
  have posted (x : Xhci) (e : Trb) : Counted s₀ (vectors ++ [0x40]) (s.post x e) := by
    have done := counted.interrupt { s.irq.world with xhci := (({ x, producer := s.producer } : EventSystem).post e).x }
      rfl rfl 0x40
    exact ⟨done.handlers, done.pitTicks, done.lapicTicks, done.counts, done.writes⟩
  cases step with
  | scancode c => exact counted.interrupt { s.irq.world with port60 := c } rfl rfl 33
  | completion c mine => exact posted _ _
  | posted e expected other => exact posted _ _
  | other vector ps2 usb => exact counted.interrupt s.irq.world rfl rfl vector
  | call call idle =>
    rw [KernelEvent.vector, Option.toList_none, List.append_nil]
    exact ⟨counted.handlers, counted.pitTicks, counted.lapicTicks, counted.counts, counted.writes⟩
  | access tailFirst here =>
    rw [KernelEvent.vector, Option.toList_none, List.append_nil]
    exact ⟨counted.handlers, counted.pitTicks, counted.lapicTicks, counted.counts, counted.writes⟩

/-- However the interrupts and the reader's accesses fall, the two tick counts are the numbers of their timers'
interrupts, `irq_get_count` is the number of the vector's interrupts where it has a handler, and every interrupt is
acknowledged once at each controller that it came through, only the local APIC's timer twice. -/
theorem kernel_interrupts_counted {s₀ : IrqState KernelHandler KernelWorld} {producer : RingProducer}
    {es : List KernelEvent} {s : InterruptSystem} (run : Path InterruptStep ⟨kernelIrqs s₀, producer, none, []⟩ es s) :
    s.irq.world.pitTicks = s₀.world.pitTicks + BitVec.ofNat 64 ((es.filterMap KernelEvent.vector).count 32) ∧
      s.irq.world.lapicTicks = s₀.world.lapicTicks + BitVec.ofNat 64 ((es.filterMap KernelEvent.vector).count 48) ∧
      (∀ v, irqGetCount s.irq v =
        if (kernelHandlerOf v).isSome then BitVec.ofNat 64 ((es.filterMap KernelEvent.vector).count v) else 0) ∧
      s.irq.writes = s₀.writes ++ (es.filterMap KernelEvent.vector).flatMap kernelAcks := by
  have counted : Counted s₀ (es.filterMap KernelEvent.vector) s := by
    apply run.snoc_induction (fun es s => Counted s₀ (es.filterMap KernelEvent.vector) s)
    · refine ⟨fun v => (kernelIrqs_entry s₀ v).1, (BitVec.add_zero _).symm, (BitVec.add_zero _).symm, fun v => ?_,
        (List.append_nil _).symm⟩
      apply (kernelIrqs_entry s₀ v).2.trans
      split <;> rfl
    · intro es mid e t _ counted step
      have done := counted.step step
      rw [List.filterMap_append]
      cases vector : e.vector with
      | none =>
        rw [vector] at done
        rwa [List.filterMap_cons_none vector]
      | some v =>
        rw [vector] at done
        rwa [List.filterMap_cons_some vector]
  exact ⟨counted.pitTicks, counted.lapicTicks, counted.counts, counted.writes⟩

/-- Two ticks of the local APIC's timer around one of the other timer and a device without a handler. -/
theorem kernel_interrupts_counted_sample :
    ∃ s : InterruptSystem, s.irq.world.lapicTicks = 2 ∧ irqGetCount s.irq 41 = 0 ∧
      s.irq.writes = [.mmio 0xFEE000B0 0, .mmio 0xFEE000B0 0, .outb 0x20 0x20, .outb 0xA0 0x20, .outb 0x20 0x20,
        .mmio 0xFEE000B0 0, .mmio 0xFEE000B0 0] := by
  have run : Path InterruptStep ⟨kernelIrqs ⟨fun _ => {}, [], { xhci := sampleKeyboard }⟩, {}, none, []⟩
      [.other 48, .other 32, .other 41, .other 48] _ :=
    .cons (.other _ _ (by decide) (by decide)) (.cons (.other _ _ (by decide) (by decide))
      (.cons (.other _ _ (by decide) (by decide)) (.cons (.other _ _ (by decide) (by decide)) (.nil _))))
  obtain ⟨_, lapic, counts, writes⟩ := kernel_interrupts_counted run
  exact ⟨_, lapic, counts 41, writes⟩

end RaryOS.Soundness
