import RaryOS.Proofs.EventCalls
import RaryOS.Proofs.KeyboardInterrupt

/-! # One buffer for all reports

All transfers of the keyboard use `intr_buf`. The controller completes a transfer with one event and
writes the buffer before that only. `handle_interrupt` queues the next transfer after its loop, if the loop
came to the event of the last one. So one transfer is under way at most, and what it wrote is processed
before the buffer is used again, in whatever order events of other kinds come.
-/

namespace RaryOS.Soundness

open RaryOS.Core RaryOS.Model

/-! ## The system -/

/-- The driver and the controller with what they have done for the keyboard: the transfers queued, the
reports completed, and those passed to `process_keys`. Inside `handle_interrupt`, `handler` has the
iterations left and `got_xfer`. -/
structure ReportSystem where
  events : EventSystem
  queued : ℕ := 0
  completed : List (ℕ → ℕ) := []
  processed : List (ℕ → ℕ) := []
  handler : Option (ℕ × Bool) := none

inductive ReportLabel where
  | post (e : Trb)
  | complete (e : Trb)
  | write (intrBuf : ℕ → ℕ)
  | handlerBegin
  | handlerEvent
  | handlerEnd

def ReportLabel.isDriver : ReportLabel → Bool
  | handlerBegin => true
  | handlerEvent => true
  | handlerEnd => true
  | _ => false

namespace ReportSystem

/-- The other fields of the driver. -/
def withDriver (s : ReportSystem) (x : Xhci) : ReportSystem := { s with events := { s.events with x := x } }

/-- There is room for an event. -/
def HasRoom (s : ReportSystem) : Prop := s.events.posted.length ≤ s.events.consumed.length + 255

/-- A transfer is queued and not completed. -/
def Outstanding (s : ReportSystem) : Prop := s.completed.length < s.queued

/-- `got_xfer`, and `false` outside `handle_interrupt`. -/
def gotXfer (s : ReportSystem) : Bool := (s.handler.map Prod.snd).getD false

end ReportSystem

/-- One step: the controller posts an event of another endpoint or of another kind, completes an
outstanding transfer with what is in the buffer, or writes the buffer while one is outstanding; the driver
enters `handle_interrupt`, makes an iteration of its loop, or leaves it. -/
inductive ReportStep : ReportSystem → ReportLabel → ReportSystem → Prop
  | post {s : ReportSystem} (e : Trb) : s.HasRoom → e.Expected → ¬s.events.x.IsKeyboard e →
      ReportStep s (.post e) { s with events := s.events.post e }
  | complete {s : ReportSystem} (e : Trb) : s.HasRoom → s.events.x.IsKeyboard e → s.Outstanding →
      ReportStep s (.complete e)
        { s with events := s.events.post e, completed := s.completed ++ [s.events.x.intrBuf] }
  | write {s : ReportSystem} (intrBuf : ℕ → ℕ) : s.Outstanding →
      ReportStep s (.write intrBuf) (s.withDriver { s.events.x with intrBuf := intrBuf })
  | handlerBegin {s : ReportSystem} : s.handler = none →
      ReportStep s .handlerBegin
        { s.withDriver s.events.x.handleInterruptBegin with handler := some (ringTrbs, false) }
  | handlerEvent {s : ReportSystem} {budget : ℕ} {gotXfer keyboard : Bool} {y : Xhci} :
      s.handler = some (budget + 1, gotXfer) → s.events.x.handleEvent = some (y, keyboard) →
      ReportStep s .handlerEvent
        { s with
          events := s.events.poll .handleInterrupt
          processed := if keyboard then s.processed ++ [s.events.x.intrBuf] else s.processed
          handler := some (budget, gotXfer || keyboard) }
  | handlerEnd {s : ReportSystem} {budget : ℕ} {gotXfer : Bool} :
      s.handler = some (budget, gotXfer) → budget = 0 ∨ s.events.x.handleEvent = none →
      ReportStep s .handlerEnd
        { s.withDriver (s.events.x.handleInterruptEnd gotXfer) with
          queued := if gotXfer ∧ 0 < s.events.x.usbActiveSlot then s.queued + 1 else s.queued
          handler := none }

/-- The events left from setting up the device: none is for the endpoint of the keyboard, for which
nothing was queued. -/
structure KeyboardReady (base : ℕ) (events : EventSystem) : Prop where
  inv : EventInv base events
  expected : ∀ e ∈ events.unconsumed, e.Expected
  unused : ∀ e ∈ events.unconsumed, ¬events.x.IsKeyboard e

/-- The keyboard after `run`. -/
def armed (events : EventSystem) (kbslot : ℕ) : ReportSystem where
  events := { events with x := events.x.armKeyboard kbslot }
  queued := 1

/-! ## The invariant -/

/-- The completions of keyboard transfers that are posted and not consumed. -/
def ReportSystem.due (ep : ℕ) (s : ReportSystem) : ℕ :=
  s.events.unconsumed.countP fun e => decide (e.type = xhciTrbXferEvt ∧ e.epid = ep * 2 + 1)

/-- A transfer is outstanding, its completion is posted, or its report was processed. -/
inductive ReportPhase (ep : ℕ) (s : ReportSystem) : Prop
  | outstanding : s.queued = s.completed.length + 1 → s.completed = s.processed → s.due ep = 0 →
      s.gotXfer = false → ReportPhase ep s
  | posted : s.queued = s.completed.length → s.completed = s.processed ++ [s.events.x.intrBuf] →
      s.due ep = 1 → s.gotXfer = false → ReportPhase ep s
  | processed : s.queued = s.completed.length → s.completed = s.processed → s.due ep = 0 →
      ReportPhase ep s

structure ReportInv (base ep : ℕ) (s : ReportSystem) : Prop where
  inv : EventInv base s.events
  expected : ∀ e ∈ s.events.unconsumed, e.Expected
  endpoint : s.events.x.hidEpNum = ep
  phase : ReportPhase ep s

theorem isKeyboard_iff_of_endpoint {x : Xhci} {ep : ℕ} (endpoint : x.hidEpNum = ep) (e : Trb) :
    x.IsKeyboard e ↔ e.type = xhciTrbXferEvt ∧ e.epid = ep * 2 + 1 := by
  rw [Xhci.IsKeyboard, endpoint]

/-- The cycle bit of an event does not matter. -/
theorem post_fields {base : ℕ} {s : EventSystem} (inv : EventInv base s) (e : Trb) :
    (s.post e).unconsumed = s.unconsumed ++ [e.withCycle s.producer.cycle] ∧
      (e.withCycle s.producer.cycle).type = e.type ∧ (e.withCycle s.producer.cycle).epid = e.epid := by
  have bit := RingProducer.bit inv.producer
  exact ⟨inv.unconsumed_append rfl rfl, Trb.withCycle_type e bit, Trb.withCycle_epid e bit⟩

namespace ReportInv

variable {base ep : ℕ} {s t : ReportSystem} {label : ReportLabel}

/-- A posted event is due if it completes a transfer of the keyboard. -/
theorem due_post (inv : ReportInv base ep s) (e : Trb) (completed : List (ℕ → ℕ)) :
    ReportSystem.due ep { s with events := s.events.post e, completed := completed } =
      s.due ep + if s.events.x.IsKeyboard e then 1 else 0 := by
  obtain ⟨grown, type, epid⟩ := post_fields inv.inv e
  simp only [ReportSystem.due, grown, List.countP_append, List.countP_singleton, type, epid,
    isKeyboard_iff_of_endpoint inv.endpoint, decide_eq_true_eq]

/-- An iteration of the loop consumes the first event, and processes the buffer if it is due. -/
theorem handled (inv : ReportInv base ep s) {y : Xhci} {keyboard : Bool}
    (step : s.events.x.handleEvent = some (y, keyboard)) :
    ∃ e rest, s.events.unconsumed = e :: rest ∧
      EventInv base (s.events.poll .handleInterrupt) ∧
      (s.events.poll .handleInterrupt).unconsumed = rest ∧ (s.events.poll .handleInterrupt).x = y ∧
      y.intrBuf = s.events.x.intrBuf ∧ y.hidEpNum = ep ∧
      keyboard = decide (e.type = xhciTrbXferEvt ∧ e.epid = ep * 2 + 1) := by
  obtain ⟨e, next, expected⟩ : ∃ e, s.events.next = some e ∧ e.Expected := by
    by_contra unexpected
    have none := inv.inv.handleEvent_none_iff.mpr fun e next here => unexpected ⟨e, next, here⟩
    rw [none] at step
    cases step
  obtain ⟨ready, here⟩ := inv.inv.entry_of_next next
  have polled : (s.events.poll .handleInterrupt).x = y := by
    rw [EventSystem.poll, EventPoll.run, step]
    rfl
  obtain ⟨rest, due⟩ := List.head?_eq_some_iff.mp ((EventInv.next_eq s.events).symm.trans next)
  refine ⟨e, rest, due, inv.inv.poll _, inv.inv.unconsumed_poll _ due expected, polled, ?_⟩
  rw [← here] at expected
  rw [← inv.endpoint]
  by_cases mine : s.events.x.IsKeyboard e
  · have handled := Xhci.handleEvent_keyboard ready (here.symm ▸ mine)
    rw [step, Option.some.injEq, Prod.mk.injEq] at handled
    obtain ⟨rfl, rfl⟩ := handled
    have counted := Xhci.countCode_keys s.events.x (s.events.x.evtRing s.events.x.evtIdx).code
    obtain ⟨effect, _⟩ := Xhci.processKeys_effect
      (s.events.x.evtAdvance.countCode (s.events.x.evtRing s.events.x.evtIdx).code)
    exact ⟨effect.intrBuf.trans counted.intrBuf, effect.hidEpNum.trans counted.hidEpNum,
      (decide_eq_true mine).symm⟩
  · obtain ⟨z, handled, same⟩ := Xhci.handleEvent_other ready expected (here.symm ▸ mine)
    rw [step, Option.some.injEq, Prod.mk.injEq] at handled
    obtain ⟨rfl, rfl⟩ := handled
    exact ⟨same.intrBuf, same.hidEpNum, (decide_eq_false mine).symm⟩

/-- With a transfer outstanding nothing is due and everything else is processed. -/
theorem of_outstanding (inv : ReportInv base ep s) (outstanding : s.Outstanding) :
    s.queued = s.completed.length + 1 ∧ s.completed = s.processed ∧ s.due ep = 0 ∧ s.gotXfer = false := by
  rw [ReportSystem.Outstanding] at outstanding
  cases inv.phase with
  | outstanding count same due got => exact ⟨count, same, due, got⟩
  | posted count => omega
  | processed count => omega

/-- When the loop has come to a keyboard event, nothing is outstanding or due. -/
theorem of_gotXfer (inv : ReportInv base ep s) (got : s.gotXfer = true) :
    s.queued = s.completed.length ∧ s.completed = s.processed ∧ s.due ep = 0 := by
  cases inv.phase with
  | outstanding _ _ _ none => exact absurd (got.symm.trans none) (by decide)
  | posted _ _ _ none => exact absurd (got.symm.trans none) (by decide)
  | processed count same due => exact ⟨count, same, due⟩

/-- Posting an expected event leaves expected events only. -/
theorem expected_post (inv : ReportInv base ep s) {e : Trb} (expected : e.Expected) :
    ∀ q ∈ (s.events.post e).unconsumed, q.Expected := by
  obtain ⟨grown, type, _⟩ := post_fields inv.inv e
  intro q member
  rw [grown] at member
  rcases List.mem_append.mp member with old | new
  · exact inv.expected q old
  · rw [List.mem_singleton.mp new, Trb.Expected, type]
    exact expected

/-- An event that completes nothing. -/
theorem post_step (inv : ReportInv base ep s) (e : Trb) (room : s.HasRoom) (expected : e.Expected)
    (other : ¬s.events.x.IsKeyboard e) : ReportInv base ep { s with events := s.events.post e } := by
  have due := inv.due_post e s.completed
  rw [if_neg other, Nat.add_zero] at due
  refine ⟨inv.inv.post e room, inv.expected_post expected, inv.endpoint, ?_⟩
  cases inv.phase with
  | outstanding count same none got => exact .outstanding count same (due.trans none) got
  | posted count same one got => exact .posted count same (due.trans one) got
  | processed count same none => exact .processed count same (due.trans none)

/-- The completion of the outstanding transfer. -/
theorem complete_step (inv : ReportInv base ep s) (e : Trb) (room : s.HasRoom) (mine : s.events.x.IsKeyboard e)
    (outstanding : s.Outstanding) : ReportInv base ep
      { s with events := s.events.post e, completed := s.completed ++ [s.events.x.intrBuf] } := by
  obtain ⟨count, same, none, got⟩ := inv.of_outstanding outstanding
  have due := inv.due_post e (s.completed ++ [s.events.x.intrBuf])
  rw [if_pos mine, none, Nat.zero_add] at due
  refine ⟨inv.inv.post e room, inv.expected_post (Or.inl mine.1), inv.endpoint, .posted ?_ ?_ due got⟩
  · rw [List.length_append, List.length_singleton]
    exact count
  · rw [same]
    rfl

/-- The driver enters the handler. -/
theorem begin_step (inv : ReportInv base ep s) (outside : s.handler = none) : ReportInv base ep
    { s.withDriver s.events.x.handleInterruptBegin with handler := some (ringTrbs, false) } := by
  have quiet : s.gotXfer = false := by
    rw [ReportSystem.gotXfer, outside]
    rfl
  refine ⟨inv.inv.congr rfl rfl rfl rfl, inv.expected, inv.endpoint, ?_⟩
  cases inv.phase with
  | outstanding count same none _ => exact .outstanding count same none rfl
  | posted count same one _ => exact .posted count same one rfl
  | processed count same none => exact .processed count same none

/-- An iteration of the loop of the handler. -/
theorem event_step (inv : ReportInv base ep s) {budget : ℕ} {got keyboard : Bool} {y : Xhci}
    (inside : s.handler = some (budget + 1, got)) (handle : s.events.x.handleEvent = some (y, keyboard)) :
    ReportInv base ep
      { s with
        events := s.events.poll .handleInterrupt
        processed := if keyboard then s.processed ++ [s.events.x.intrBuf] else s.processed
        handler := some (budget, got || keyboard) } := by
  obtain ⟨e, rest, due, polled, left, here, buffer, endpoint, mine⟩ := inv.handled handle
  have gotXfer : s.gotXfer = got := by
    rw [ReportSystem.gotXfer, inside]
    rfl
  have count : s.due ep = rest.countP (fun e => decide (e.type = xhciTrbXferEvt ∧ e.epid = ep * 2 + 1)) +
      if keyboard then 1 else 0 := by
    rw [ReportSystem.due, due, List.countP_cons, mine]
  refine ⟨polled, ?_, ?_, ?_⟩
  · rw [left]
    exact fun q member => inv.expected q (due ▸ List.mem_cons_of_mem e member)
  · rw [here]
    exact endpoint
  · have due' (processed : List (ℕ → ℕ)) (handler : Option (ℕ × Bool)) : ReportSystem.due ep
        { s with events := s.events.poll .handleInterrupt, processed := processed, handler := handler } =
          rest.countP fun e => decide (e.type = xhciTrbXferEvt ∧ e.epid = ep * 2 + 1) := by
      rw [ReportSystem.due, left]
    cases keyboard with
    | true =>
      -- the completion was due, so the buffer holds its report
      cases inv.phase with
      | outstanding _ _ none _ => exact absurd (count.symm.trans none) (Nat.succ_ne_zero _)
      | posted queued same one _ =>
        refine .processed queued same ((due' _ _).trans ?_)
        exact Nat.add_right_cancel (count.symm.trans one)
      | processed _ _ none => exact absurd (count.symm.trans none) (Nat.succ_ne_zero _)
    | false =>
      have kept := (due' s.processed (some (budget, got || false))).trans count.symm
      cases inv.phase with
      | outstanding queued same none quiet =>
        refine .outstanding queued same (kept.trans none) ?_
        rw [gotXfer] at quiet
        rw [quiet]
        rfl
      | posted queued same one quiet =>
        refine .posted queued (same.trans ?_) (kept.trans one) ?_
        · rw [here, buffer]
          rfl
        · rw [gotXfer] at quiet
          rw [quiet]
          rfl
      | processed queued same none => exact .processed queued same (kept.trans none)

/-- The driver leaves the handler, and queues the next transfer if it has seen one of the keyboard. -/
theorem end_step (inv : ReportInv base ep s) {budget : ℕ} {got : Bool} (inside : s.handler = some (budget, got)) :
    ReportInv base ep
      { s.withDriver (s.events.x.handleInterruptEnd got) with
        queued := if got ∧ 0 < s.events.x.usbActiveSlot then s.queued + 1 else s.queued
        handler := none } := by
  have gotXfer : s.gotXfer = got := by
    rw [ReportSystem.gotXfer, inside]
    rfl
  have kept := (EventStep.handlerEnd s.events got).inv inv.inv
  by_cases queues : got = true ∧ 0 < s.events.x.usbActiveSlot
  · obtain ⟨count, same, none⟩ := inv.of_gotXfer (gotXfer.trans queues.1)
    have fields : (s.events.x.handleInterruptEnd got).hidEpNum = s.events.x.hidEpNum := by
      rw [Xhci.handleInterruptEnd, if_pos queues]
      rfl
    refine ⟨kept, inv.expected, fields.trans inv.endpoint, .outstanding ?_ same none rfl⟩
    rw [if_pos queues, count]
    rfl
  · have fields : (s.events.x.handleInterruptEnd got).hidEpNum = s.events.x.hidEpNum ∧
        (s.events.x.handleInterruptEnd got).intrBuf = s.events.x.intrBuf := by
      simp only [Xhci.handleInterruptEnd, if_neg queues, and_self]
    refine ⟨kept, inv.expected, fields.1.trans inv.endpoint, ?_⟩
    rw [if_neg queues]
    cases inv.phase with
    | outstanding count same none _ => exact .outstanding count same none rfl
    | posted count same one _ => exact .posted count (same.trans (by rw [← fields.2]; rfl)) one rfl
    | processed count same none => exact .processed count same none

/-- Every step keeps the invariant. -/
theorem step (inv : ReportInv base ep s) (step : ReportStep s label t) : ReportInv base ep t := by
  cases step with
  | post e room expected other => exact inv.post_step e room expected other
  | complete e room mine outstanding => exact inv.complete_step e room mine outstanding
  | write intrBuf outstanding =>
    obtain ⟨count, same, none, got⟩ := inv.of_outstanding outstanding
    exact ⟨inv.inv.congr rfl rfl rfl rfl, inv.expected, inv.endpoint, .outstanding count same none got⟩
  | handlerBegin outside => exact inv.begin_step outside
  | handlerEvent inside handle => exact inv.event_step inside handle
  | handlerEnd inside => exact inv.end_step inside

/-- After `run` has queued the first transfer. -/
theorem armed {events : EventSystem} (ready : KeyboardReady base events) (kbslot : ℕ) :
    ReportInv base events.x.hidEpNum (armed events kbslot) where
  inv := ready.inv.congr rfl rfl rfl rfl
  expected := ready.expected
  endpoint := rfl
  phase := by
    refine .outstanding rfl rfl ?_ rfl
    rw [ReportSystem.due, List.countP_eq_zero]
    exact fun e member => mt of_decide_eq_true (ready.unused e member)

end ReportInv

/-! ## Runs -/

/-- The loop of `handle_interrupt`. -/
theorem handleEvents_run (budget : ℕ) (s : ReportSystem) {gotXfer : Bool}
    (inside : s.handler = some (budget, gotXfer)) :
    ∃ labels t left, Path ReportStep s labels t ∧
      t.handler = some (left, (s.events.x.handleEvents budget gotXfer).2) ∧
      (left = 0 ∨ t.events.x.handleEvent = none) ∧ t.events.x = (s.events.x.handleEvents budget gotXfer).1 := by
  induction budget generalizing s gotXfer with
  | zero => exact ⟨[], s, 0, .nil s, inside, Or.inl rfl, rfl⟩
  | succ budget ih =>
    cases event : s.events.x.handleEvent with
    | none =>
      have done : s.events.x.handleEvents (budget + 1) gotXfer = (s.events.x, gotXfer) := by
        rw [Xhci.handleEvents, event]
      rw [done]
      exact ⟨[], s, budget + 1, .nil s, inside, Or.inr event, rfl⟩
    | some outcome =>
      obtain ⟨y, keyboard⟩ := outcome
      have here : (s.events.poll .handleInterrupt).x = y := by
        rw [EventSystem.poll, EventPoll.run, event]
        rfl
      have goes : s.events.x.handleEvents (budget + 1) gotXfer =
          (s.events.poll .handleInterrupt).x.handleEvents budget (gotXfer || keyboard) := by
        rw [Xhci.handleEvents, event, here]
      obtain ⟨labels, t, left, rest, handler, ends, state⟩ := ih
        { s with
          events := s.events.poll .handleInterrupt
          processed := if keyboard then s.processed ++ [s.events.x.intrBuf] else s.processed
          handler := some (budget, gotXfer || keyboard) } rfl
      rw [goes]
      exact ⟨_, t, left, .cons (.handlerEvent inside event) rest, handler, ends, state⟩

/-- A call of `handle_interrupt` during which the controller does nothing. -/
theorem handleInterrupt_run (s : ReportSystem) (outside : s.handler = none) :
    ∃ labels t, Path ReportStep s labels t ∧ t.handler = none ∧
      t.events.x = s.events.x.handleInterrupt := by
  obtain ⟨labels, t, left, rest, handler, ends, state⟩ := handleEvents_run ringTrbs
    { s.withDriver s.events.x.handleInterruptBegin with handler := some (ringTrbs, false) } rfl
  refine ⟨_, _, (Path.cons (.handlerBegin outside) rest).snoc (.handlerEnd handler ends), rfl, ?_⟩
  simp only [ReportSystem.withDriver, state]
  rfl

end RaryOS.Soundness
