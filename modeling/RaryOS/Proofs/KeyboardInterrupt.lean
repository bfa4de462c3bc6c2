import RaryOS.Proofs.EventRing
import RaryOS.Proofs.ProcessKeys

/-! # An interrupt with one event

When everything posted has been consumed and the controller posts one more event, `handle_interrupt`
consumes this one. If it completes a transfer of the keyboard, the report in the buffer is processed and
the next transfer is queued with a zeroed buffer; otherwise the keyboard is left alone.
-/

namespace RaryOS.Model

open RaryOS.Core

/-- `(control >> 16) & 0x1F`. -/
def Trb.epid (e : Trb) : ℕ := e.control / 2 ^ 16 % 2 ^ 5

theorem Trb.withCycle_epid (e : Trb) {cycle : ℕ} (bit : cycle ≤ 1) :
    (e.withCycle cycle).epid = e.epid := by
  simp only [epid, withCycle]
  omega

@[simp] theorem Trb.withCycle_code (e : Trb) (cycle : ℕ) : (e.withCycle cycle).code = e.code := rfl

namespace Xhci

/-- The event completes a transfer of the keyboard's endpoint. -/
def IsKeyboard (x : Xhci) (e : Trb) : Prop := e.type = xhciTrbXferEvt ∧ e.epid = x.hidEpNum * 2 + 1

instance (x : Xhci) (e : Trb) : Decidable (x.IsKeyboard e) := inferInstanceAs (Decidable (_ ∧ _))

/-- The key codes that an iteration of `handle_interrupt` pushes. -/
def eventPushes (x : Xhci) : List ℕ :=
  let e := x.evtRing x.evtIdx
  if x.IsKeyboard e then (x.evtAdvance.countCode e.code).pushedKeys else []

/-- The key codes that the loop of `handle_interrupt` pushes. -/
def eventsPushes : (budget : ℕ) → Xhci → List ℕ
  | 0, _ => []
  | budget + 1, x =>
    match x.handleEvent with
    | none => []
    | some (y, _) => x.eventPushes ++ eventsPushes budget y

/-- The key codes that `handle_interrupt` pushes. -/
def interruptPushes (x : Xhci) : List ℕ := eventsPushes ringTrbs x.handleInterruptBegin

/-- Nothing on the keyboard side differs. -/
structure SameKeys (x y : Xhci) : Prop where
  prevKeys : y.prevKeys = x.prevKeys
  intrBuf : y.intrBuf = x.intrBuf
  input : y.input = x.input
  pushCount : y.pushCount = x.pushCount
  hidEpNum : y.hidEpNum = x.hidEpNum
  usbActiveSlot : y.usbActiveSlot = x.usbActiveSlot

theorem SameKeys.trans {x y z : Xhci} (first : SameKeys x y) (second : SameKeys y z) : SameKeys x z :=
  ⟨second.prevKeys.trans first.prevKeys, second.intrBuf.trans first.intrBuf,
    second.input.trans first.input, second.pushCount.trans first.pushCount,
    second.hidEpNum.trans first.hidEpNum, second.usbActiveSlot.trans first.usbActiveSlot⟩

/-- A completion was handled: the buffer was processed and is zeroed for the next transfer. -/
structure KeyboardHandled (x y : Xhci) (pushes : List ℕ) : Prop where
  pushed : pushes = newItems mappedKey x.prevKeys (reportKeys x.intrBuf)
  prevKeys : y.prevKeys = reportKeys x.intrBuf
  intrBuf : y.intrBuf = fun _ => 0
  input : y.input = pushKeys x.input pushes
  pushCount : y.pushCount = x.pushCount + pushes.length
  hidEpNum : y.hidEpNum = x.hidEpNum
  usbActiveSlot : y.usbActiveSlot = x.usbActiveSlot

theorem countCode_keys (x : Xhci) (code : ℕ) : SameKeys x (x.evtAdvance.countCode code) := by
  rw [countCode]
  split <;> exact ⟨rfl, rfl, rfl, rfl, rfl, rfl⟩

/-- An iteration on the completion of a transfer of the keyboard. -/
theorem handleEvent_keyboard {x : Xhci} (ready : x.Ready) (mine : x.IsKeyboard (x.evtRing x.evtIdx)) :
    x.handleEvent =
      some ((x.evtAdvance.countCode (x.evtRing x.evtIdx).code).processKeys, true) := by
  have cycle : ¬(x.evtRing x.evtIdx).cycle ≠ x.evtCycle := not_not.mpr ready
  have epid : (x.evtRing x.evtIdx).control / 2 ^ 16 % 2 ^ 5 =
      (x.evtAdvance.countCode ((x.evtRing x.evtIdx).status / 2 ^ 24 % 2 ^ 8)).hidEpNum * 2 + 1 :=
    mine.2.trans (congrArg (· * 2 + 1) (countCode_keys x _).hidEpNum.symm)
  rw [handleEvent, if_neg cycle, if_pos mine.1]
  exact if_pos epid

/-- An iteration on another event. -/
theorem handleEvent_other {x : Xhci} (ready : x.Ready) (expected : (x.evtRing x.evtIdx).Expected)
    (other : ¬x.IsKeyboard (x.evtRing x.evtIdx)) :
    ∃ y, x.handleEvent = some (y, false) ∧ SameKeys x y := by
  have cycle : ¬(x.evtRing x.evtIdx).cycle ≠ x.evtCycle := not_not.mpr ready
  by_cases xfer : (x.evtRing x.evtIdx).type = xhciTrbXferEvt
  · have same := countCode_keys x ((x.evtRing x.evtIdx).status / 2 ^ 24 % 2 ^ 8)
    have epid : ¬(x.evtRing x.evtIdx).control / 2 ^ 16 % 2 ^ 5 =
        (x.evtAdvance.countCode ((x.evtRing x.evtIdx).status / 2 ^ 24 % 2 ^ 8)).hidEpNum * 2 + 1 :=
      fun here => other ⟨xfer, here.trans (congrArg (· * 2 + 1) same.hidEpNum)⟩
    refine ⟨_, ?_, same⟩
    rw [handleEvent, if_neg cycle, if_pos xfer]
    exact if_neg epid
  · have rest : (x.evtRing x.evtIdx).type = xhciTrbPortsc ∨ (x.evtRing x.evtIdx).type = xhciTrbCmdCmpl :=
      (expected.resolve_left xfer).symm
    refine ⟨x.evtAdvance, ?_, rfl, rfl, rfl, rfl, rfl, rfl⟩
    rw [handleEvent, if_neg cycle, if_neg xfer, if_pos rest]

end Xhci

section OneEvent

variable {base : ℕ} {s : EventSystem} (inv : EventInv base s) (drained : s.consumed = s.posted) {e : Trb}
  (expected : e.Expected)

include inv drained expected

/-- `handle_interrupt` consumes the one event and leaves its loop. -/
theorem interrupt_of_one :
    ∃ y keyboard, (s.post e).x.handleInterruptBegin.handleEvent = some (y, keyboard) ∧
      (s.post e).x.handleInterrupt = y.handleInterruptEnd keyboard ∧
      (s.post e).x.interruptPushes = (s.post e).x.handleInterruptBegin.eventPushes ∧
      (s.post e).x.handleInterruptBegin.Ready ∧
      (s.post e).x.handleInterruptBegin.evtRing (s.post e).x.handleInterruptBegin.evtIdx =
        e.withCycle s.producer.cycle ∧
      ∃ posted, EventInv base ⟨(s.post e).x.handleInterrupt, s.producer.advance, posted, posted⟩ := by
  have bit := RingProducer.bit inv.producer
  have posted := inv.post e (by rw [drained]; omega)
  have begun := (EventStep.handlerBegin (s.post e)).inv posted
  have entered : (e.withCycle s.producer.cycle).Expected := by
    simpa only [Trb.Expected, Trb.withCycle_type e bit] using expected
  have next : ({ s.post e with x := (s.post e).x.handleInterruptBegin } : EventSystem).next =
      some (e.withCycle s.producer.cycle) := by
    simp only [EventSystem.next, EventSystem.post, drained, List.getElem?_concat_length]
  obtain ⟨ready, here⟩ := begun.entry_of_next next
  obtain ⟨y, keyboard, first, _⟩ := Xhci.handleEvent_of_expected ready (here ▸ entered)
  obtain ⟨polled, consumed, _⟩ := begun.poll_of_expected .handleInterrupt next entered
  have state : ({ s.post e with x := (s.post e).x.handleInterruptBegin } : EventSystem).poll
      .handleInterrupt = ⟨y, s.producer.advance, s.posted ++ [e.withCycle s.producer.cycle],
        s.posted ++ [e.withCycle s.producer.cycle]⟩ := by
    have run : EventPoll.run .handleInterrupt (s.post e).x.handleInterruptBegin = y := by
      rw [EventPoll.run, first, Option.map_some, Option.getD_some]
    have kept : (({ s.post e with x := (s.post e).x.handleInterruptBegin } : EventSystem).poll
        .handleInterrupt).consumed = s.posted ++ [e.withCycle s.producer.cycle] := by
      rw [consumed]
      exact congrArg (· ++ _) drained
    rw [EventSystem.poll] at kept ⊢
    simp only at kept
    rw [kept, run]
    rfl
  rw [state] at polled
  have none : y.handleEvent = .none := by
    apply Xhci.handleEvent_rests
    intro both
    exact absurd (polled.ready_iff.mp both.1) (Nat.lt_irrefl _)
  have ended : (s.post e).x.handleInterrupt = y.handleInterruptEnd keyboard := by
    rw [Xhci.handleInterrupt, show ringTrbs = 254 + 1 + 1 from rfl]
    simp only [Xhci.handleEvents, first, none, Bool.false_or]
  refine ⟨y, keyboard, first, ended, ?_, ready, here,
    s.posted ++ [e.withCycle s.producer.cycle], ?_⟩
  · rw [Xhci.interruptPushes, show ringTrbs = 254 + 1 + 1 from rfl]
    simp only [Xhci.eventsPushes, first, none, List.append_nil]
  · rw [ended]
    exact (EventStep.handlerEnd _ keyboard).inv polled

/-- The event that the loop looks at is the posted one. -/
private theorem isKeyboard_iff :
    (s.post e).x.handleInterruptBegin.IsKeyboard
      ((s.post e).x.handleInterruptBegin.evtRing (s.post e).x.handleInterruptBegin.evtIdx) ↔
      s.x.IsKeyboard e := by
  obtain ⟨_, _, _, _, _, _, here, _⟩ := interrupt_of_one inv drained expected
  have bit := RingProducer.bit inv.producer
  rw [here, Xhci.IsKeyboard, Xhci.IsKeyboard, Trb.withCycle_type e bit, Trb.withCycle_epid e bit]
  rfl

/-- The completion of a transfer of the keyboard. -/
theorem interrupt_keyboard (mine : s.x.IsKeyboard e) (active : 0 < s.x.usbActiveSlot) :
    s.x.KeyboardHandled (s.post e).x.handleInterrupt (s.post e).x.interruptPushes := by
  obtain ⟨y, keyboard, first, ended, pushes, ready, _, _⟩ := interrupt_of_one inv drained expected
  have here := (isKeyboard_iff inv drained expected).mpr mine
  rw [ended, pushes, Xhci.eventPushes, if_pos here]
  rw [Xhci.handleEvent_keyboard ready here, Option.some.injEq, Prod.mk.injEq] at first
  obtain ⟨rfl, rfl⟩ := first
  have counted := Xhci.countCode_keys (s.post e).x.handleInterruptBegin
    ((s.post e).x.handleInterruptBegin.evtRing (s.post e).x.handleInterruptBegin.evtIdx).code
  generalize (s.post e).x.handleInterruptBegin.evtAdvance.countCode _ = x at counted ⊢
  obtain ⟨effect, kept, pushed⟩ := Xhci.processKeys_effect x
  have slot : 0 < x.processKeys.usbActiveSlot := by
    rw [effect.usbActiveSlot, counted.usbActiveSlot]
    exact active
  simp only [Xhci.handleInterruptEnd, true_and, slot, if_true]
  refine ⟨?_, ?_, rfl, ?_, ?_, effect.hidEpNum.trans counted.hidEpNum,
    effect.usbActiveSlot.trans counted.usbActiveSlot⟩
  · rw [pushed, counted.prevKeys, counted.intrBuf]
    rfl
  · exact kept.trans (congrArg reportKeys counted.intrBuf)
  · exact effect.input.trans (congrArg (pushKeys · _) counted.input)
  · exact effect.pushCount.trans (congrArg (· + _) counted.pushCount)

/-- Any other expected event. -/
theorem interrupt_other (other : ¬s.x.IsKeyboard e) :
    s.x.SameKeys (s.post e).x.handleInterrupt ∧ (s.post e).x.interruptPushes = [] := by
  obtain ⟨y, keyboard, first, ended, pushes, ready, here, _⟩ := interrupt_of_one inv drained expected
  have elsewhere := mt (isKeyboard_iff inv drained expected).mp other
  have entered : ((s.post e).x.handleInterruptBegin.evtRing
      (s.post e).x.handleInterruptBegin.evtIdx).Expected := by
    rw [here]
    simpa only [Trb.Expected, Trb.withCycle_type e (RingProducer.bit inv.producer)] using expected
  obtain ⟨z, step, same⟩ := Xhci.handleEvent_other ready entered elsewhere
  rw [step, Option.some.injEq, Prod.mk.injEq] at first
  obtain ⟨rfl, rfl⟩ := first
  refine ⟨?_, by rw [pushes, Xhci.eventPushes, if_neg elsewhere]⟩
  rw [ended, Xhci.handleInterruptEnd]
  simp only [Bool.false_eq_true, false_and, if_false]
  exact ⟨same.prevKeys, same.intrBuf, same.input, same.pushCount, same.hidEpNum, same.usbActiveSlot⟩

end OneEvent

end RaryOS.Model
