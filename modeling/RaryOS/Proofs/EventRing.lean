import RaryOS.Core.CycleRing
import RaryOS.Core.Path
import RaryOS.Model.Xhci
import RaryOS.Proofs.TransferRing

/-! # The driver and the controller on the event ring

The controller posts events of any type, with the cycle bit of its lap. A poll of the driver consumes
the first unconsumed event if it is of an expected type, and otherwise changes nothing.
-/

namespace RaryOS.Model

open RaryOS.Core

/-- The types that the driver consumes: transfer events, command completions, port changes. -/
def Trb.Expected (t : Trb) : Prop :=
  t.type = xhciTrbXferEvt ∨ t.type = xhciTrbCmdCmpl ∨ t.type = xhciTrbPortsc

instance (t : Trb) : Decidable t.Expected := inferInstanceAs (Decidable (_ ∨ _))

namespace Xhci

/-- Nothing on the event side differs. -/
structure SameEvents (x y : Xhci) : Prop where
  evtRing : y.evtRing = x.evtRing
  evtRingPhys : y.evtRingPhys = x.evtRingPhys
  evtIdx : y.evtIdx = x.evtIdx
  evtCycle : y.evtCycle = x.evtCycle
  mmio : y.mmio = x.mmio

theorem SameEvents.refl (x : Xhci) : SameEvents x x := ⟨rfl, rfl, rfl, rfl, rfl⟩

theorem SameEvents.trans {x y z : Xhci} (first : SameEvents x y) (second : SameEvents y z) :
    SameEvents x z :=
  ⟨second.evtRing.trans first.evtRing, second.evtRingPhys.trans first.evtRingPhys,
    second.evtIdx.trans first.evtIdx, second.evtCycle.trans first.evtCycle, second.mmio.trans first.mmio⟩

theorem processKey_same (x : Xhci) (k : ℕ) : SameEvents x (x.processKey k) := by
  rw [processKey]
  split
  · exact .refl x
  · simp only
    split <;> exact ⟨rfl, rfl, rfl, rfl, rfl⟩

theorem processKeys_same (x : Xhci) : SameEvents x x.processKeys := by
  have fold (keys : List ℕ) (x : Xhci) : SameEvents x (keys.foldl processKey x) := by
    induction keys generalizing x with
    | nil => exact .refl x
    | cons k keys ih => exact (processKey_same x k).trans (ih _)
  have keys := fold ((List.range 6).map fun i => x.intrBuf (2 + i)) x
  exact ⟨keys.evtRing, keys.evtRingPhys, keys.evtIdx, keys.evtCycle, keys.mmio⟩

theorem countCode_same (x : Xhci) (code : ℕ) : SameEvents x (x.countCode code) := by
  rw [countCode]
  split
  · exact ⟨rfl, rfl, rfl, rfl, rfl⟩
  · exact .refl x

/-- The entry at the event index is one of the current lap. -/
def Ready (x : Xhci) : Prop := (x.evtRing x.evtIdx).cycle = x.evtCycle

instance (x : Xhci) : Decidable x.Ready := inferInstanceAs (Decidable (_ = _))

/-- The two waiting functions differ in the type they look at only. -/
structure Awaits (awaited other : ℕ) : Prop where
  distinct : awaited ≠ xhciTrbPortsc ∧ awaited ≠ other
  expected : ∀ t : Trb, t.Expected ↔ t.type = awaited ∨ t.type = xhciTrbPortsc ∨ t.type = other

theorem awaits_cmd : Awaits xhciTrbCmdCmpl xhciTrbXferEvt :=
  ⟨by decide, fun t => by simp only [Trb.Expected]; tauto⟩

theorem awaits_xfer : Awaits xhciTrbXferEvt xhciTrbCmdCmpl :=
  ⟨by decide, fun t => by simp only [Trb.Expected]; tauto⟩

section WaitPoll

variable {awaited other : ℕ} (awaits : Awaits awaited other) (address : ℕ) {x : Xhci}
include awaits

/-- A poll on an expected event consumes it, and returns it if it is the awaited one. -/
theorem waitPoll_of_expected (ready : x.Ready) (expected : (x.evtRing x.evtIdx).Expected) :
    waitPoll awaited other address x =
      (x.evtAdvance,
        if (x.evtRing x.evtIdx).type = awaited ∧ (x.evtRing x.evtIdx).parameter = address then
          some (x.evtRing x.evtIdx)
        else none) := by
  have cycle : ¬(x.evtRing x.evtIdx).cycle ≠ x.evtCycle := not_not.mpr ready
  rcases (awaits.expected _).mp expected with here | rest
  · simp only [waitPoll, if_neg cycle, here, true_and, if_true]
  · have away : (x.evtRing x.evtIdx).type ≠ awaited := by
      rcases rest with portsc | second
      · rw [portsc]
        exact awaits.distinct.1.symm
      · rw [second]
        exact awaits.distinct.2.symm
    simp only [waitPoll, if_neg cycle, if_pos rest, away, false_and, if_false]

/-- Any other poll changes nothing. -/
theorem waitPoll_rests (none : ¬(x.Ready ∧ (x.evtRing x.evtIdx).Expected)) :
    waitPoll awaited other address x = (x, .none) := by
  rw [waitPoll]
  by_cases ready : x.Ready
  · have unexpected := (awaits.expected _).not.mp fun expected => none ⟨ready, expected⟩
    rw [not_or] at unexpected
    have cycle : ¬(x.evtRing x.evtIdx).cycle ≠ x.evtCycle := not_not.mpr ready
    simp only [if_neg cycle, if_neg unexpected.1, if_neg unexpected.2]
  · exact if_pos ready

end WaitPoll

/-- An iteration of `handle_interrupt` on an expected event consumes it. -/
theorem handleEvent_of_expected {x : Xhci} (ready : x.Ready)
    (expected : (x.evtRing x.evtIdx).Expected) :
    ∃ y keyboard, x.handleEvent = some (y, keyboard) ∧ SameEvents x.evtAdvance y := by
  have cycle : ¬(x.evtRing x.evtIdx).cycle ≠ x.evtCycle := not_not.mpr ready
  by_cases xfer : (x.evtRing x.evtIdx).type = xhciTrbXferEvt
  · simp only [handleEvent, if_neg cycle, if_pos xfer]
    have counted := countCode_same x.evtAdvance ((x.evtRing x.evtIdx).status / 2 ^ 24 % 2 ^ 8)
    split
    · exact ⟨_, true, rfl, counted.trans (processKeys_same _)⟩
    · exact ⟨_, false, rfl, counted⟩
  · have rest : (x.evtRing x.evtIdx).type = xhciTrbPortsc ∨ (x.evtRing x.evtIdx).type = xhciTrbCmdCmpl :=
      (expected.resolve_left xfer).symm
    exact ⟨_, false, by simp only [handleEvent, if_neg cycle, if_neg xfer, if_pos rest], .refl _⟩

theorem handleEvent_rests {x : Xhci} (none : ¬(x.Ready ∧ (x.evtRing x.evtIdx).Expected)) :
    x.handleEvent = .none := by
  rw [handleEvent]
  by_cases ready : x.Ready
  · have unexpected : ¬(x.evtRing x.evtIdx).Expected := fun expected => none ⟨ready, expected⟩
    rw [Trb.Expected, not_or, or_comm] at unexpected
    have cycle : ¬(x.evtRing x.evtIdx).cycle ≠ x.evtCycle := not_not.mpr ready
    simp only [if_neg cycle, if_neg unexpected.1, if_neg unexpected.2]
  · exact if_pos ready

end Xhci

/-! ## The system -/

/-- A poll of the event ring: an iteration of one of the three loops. -/
inductive EventPoll where
  | waitCmd (cmdPhys : ℕ)
  | waitXfer (trbPhys : ℕ)
  | handleInterrupt

def EventPoll.run : EventPoll → Xhci → Xhci
  | waitCmd cmdPhys, x => (x.waitCmdPoll cmdPhys).1
  | waitXfer trbPhys, x => (x.waitXferPoll trbPhys).1
  | handleInterrupt, x => (x.handleEvent.map Prod.fst).getD x

theorem EventPoll.run_of_expected (poll : EventPoll) {x : Xhci} (ready : x.Ready)
    (expected : (x.evtRing x.evtIdx).Expected) : Xhci.SameEvents x.evtAdvance (poll.run x) := by
  cases poll with
  | waitCmd cmdPhys =>
    rw [run, Xhci.waitCmdPoll, Xhci.waitPoll_of_expected Xhci.awaits_cmd cmdPhys ready expected]
    exact .refl _
  | waitXfer trbPhys =>
    rw [run, Xhci.waitXferPoll, Xhci.waitPoll_of_expected Xhci.awaits_xfer trbPhys ready expected]
    exact .refl _
  | handleInterrupt =>
    obtain ⟨y, keyboard, step, same⟩ := Xhci.handleEvent_of_expected ready expected
    rw [run, step]
    exact same

theorem EventPoll.run_rests (poll : EventPoll) {x : Xhci}
    (none : ¬(x.Ready ∧ (x.evtRing x.evtIdx).Expected)) : poll.run x = x := by
  cases poll with
  | waitCmd cmdPhys => rw [run, Xhci.waitCmdPoll, Xhci.waitPoll_rests Xhci.awaits_cmd cmdPhys none]
  | waitXfer trbPhys => rw [run, Xhci.waitXferPoll, Xhci.waitPoll_rests Xhci.awaits_xfer trbPhys none]
  | handleInterrupt =>
    rw [run, Xhci.handleEvent_rests none]
    rfl

/-- The driver with the ring, the controller's place in the ring, the entries that the controller
posted and those that the driver consumed. -/
structure EventSystem where
  x : Xhci
  producer : RingProducer := {}
  posted : List Trb := []
  consumed : List Trb := []

/-- The next place of the controller. -/
def RingProducer.advance (p : RingProducer) : RingProducer :=
  if p.idx + 1 = ringTrbs then { idx := 0, cycle := p.cycle ^^^ 1 } else { p with idx := p.idx + 1 }

/-- The controller posts an event, with the cycle bit of its lap. -/
def EventSystem.post (s : EventSystem) (e : Trb) : EventSystem :=
  let entry := e.withCycle s.producer.cycle
  { s with
    x := { s.x with evtRing := Function.update s.x.evtRing s.producer.idx entry }
    producer := s.producer.advance
    posted := s.posted ++ [entry] }

/-- The driver polls; it has consumed the entry at its index if the index moves. -/
def EventSystem.poll (s : EventSystem) (poll : EventPoll) : EventSystem :=
  { s with
    x := poll.run s.x
    consumed :=
      if (poll.run s.x).evtIdx = s.x.evtIdx then s.consumed
      else s.consumed ++ [s.x.evtRing s.x.evtIdx] }

inductive EventLabel where
  | post (e : Trb)
  | transfer (intrBuf : ℕ → ℕ)
  | poll (poll : EventPoll)
  | handlerBegin
  | handlerEnd (gotXfer : Bool)

/-- One step: the controller posts an event while at most 255 are unconsumed, or writes the data of a
transfer; the driver polls, or enters or leaves `handle_interrupt`. -/
inductive EventStep : EventSystem → EventLabel → EventSystem → Prop
  | post {s : EventSystem} (e : Trb) : s.posted.length ≤ s.consumed.length + 255 →
      EventStep s (.post e) (s.post e)
  | transfer (s : EventSystem) (intrBuf : ℕ → ℕ) :
      EventStep s (.transfer intrBuf) { s with x := { s.x with intrBuf := intrBuf } }
  | poll (s : EventSystem) (p : EventPoll) : EventStep s (.poll p) (s.poll p)
  | handlerBegin (s : EventSystem) :
      EventStep s .handlerBegin { s with x := s.x.handleInterruptBegin }
  | handlerEnd (s : EventSystem) (gotXfer : Bool) :
      EventStep s (.handlerEnd gotXfer) { s with x := s.x.handleInterruptEnd gotXfer }

/-- The first unconsumed entry. -/
def EventSystem.next (s : EventSystem) : Option Trb := s.posted[s.consumed.length]?

/-- The invariant of the event ring, at `base`. -/
structure EventInv (base : ℕ) (s : EventSystem) : Prop where
  ring : CycleRing 256 Trb.cycle s.x.evtRing s.posted s.posted.length
  producer : Cursor 256 s.producer.idx s.producer.cycle s.posted.length
  producerIdx : s.producer.idx < 256
  driver : Cursor 256 s.x.evtIdx s.x.evtCycle s.consumed.length
  driverIdx : s.x.evtIdx < 256
  consumed : s.consumed <+: s.posted
  window : s.posted.length ≤ s.consumed.length + 256
  phys : s.x.evtRingPhys = base

/-- An index that wraps at once. -/
theorem cursor_advance {idx cycle count : ℕ} (cursor : Cursor 256 idx cycle count) (inside : idx < 256) :
    (idx + 1 = 256 ∧ Cursor 256 0 (cycle ^^^ 1) (count + 1)) ∨
      (idx + 1 < 256 ∧ Cursor 256 (idx + 1) cycle (count + 1)) := by
  have next := cursor.next inside
  rcases Nat.lt_or_ge (idx + 1) 256 with more | last
  · exact Or.inr ⟨more, next⟩
  · have ending : idx + 1 = 256 := by omega
    rw [ending] at next
    rw [xor_one_eq (RingProducer.bit cursor)]
    exact Or.inl ⟨ending, next.wrap⟩

namespace EventInv

variable {base : ℕ} {s : EventSystem}

/-- The entry at the event index is one of the current lap exactly when an event is unconsumed, and
then it is the first one. -/
theorem ready_iff (inv : EventInv base s) : s.x.Ready ↔ s.consumed.length < s.posted.length := by
  obtain ⟨slot, mark⟩ := inv.driver.slot inv.driverIdx
  rw [Xhci.Ready, ← slot, ← mark]
  exact inv.ring.ready_iff inv.consumed.length_le inv.window

theorem entry_of_next (inv : EventInv base s) {e : Trb} (next : s.next = some e) :
    s.x.Ready ∧ s.x.evtRing s.x.evtIdx = e := by
  obtain ⟨bound, rfl⟩ := List.getElem?_eq_some_iff.mp next
  obtain ⟨slot, _⟩ := inv.driver.slot inv.driverIdx
  refine ⟨inv.ready_iff.mpr bound, ?_⟩
  rw [← slot]
  exact inv.ring.stored _ bound inv.window

/-- The event side is all that matters. -/
theorem congr (inv : EventInv base s) {y : Xhci} (ring : y.evtRing = s.x.evtRing)
    (phys : y.evtRingPhys = s.x.evtRingPhys) (idx : y.evtIdx = s.x.evtIdx)
    (cycle : y.evtCycle = s.x.evtCycle) : EventInv base { s with x := y } where
  ring := by
    simp only [ring]
    exact inv.ring
  producer := inv.producer
  producerIdx := inv.producerIdx
  driver := by
    simp only [idx, cycle]
    exact inv.driver
  driverIdx := by
    simp only [idx]
    exact inv.driverIdx
  consumed := inv.consumed
  window := inv.window
  phys := by
    simp only [phys]
    exact inv.phys

theorem post (inv : EventInv base s) (e : Trb) (room : s.posted.length ≤ s.consumed.length + 255) :
    EventInv base (s.post e) := by
  have bit := RingProducer.bit inv.producer
  obtain ⟨slot, mark⟩ := inv.producer.slot inv.producerIdx
  have grown : (s.posted ++ [e.withCycle s.producer.cycle]).length = s.posted.length + 1 := by
    rw [List.length_append, List.length_singleton]
  have ring := (inv.ring.reserve (Nat.le_succ _)).publish (by decide)
    ((Trb.withCycle_cycle e bit).trans mark.symm)
  rw [slot] at ring
  have moved : Cursor 256 s.producer.advance.idx s.producer.advance.cycle (s.posted.length + 1) ∧
      s.producer.advance.idx < 256 := by
    rw [RingProducer.advance, ringTrbs]
    rcases cursor_advance inv.producer inv.producerIdx with ⟨ending, next⟩ | ⟨more, next⟩
    · rw [if_pos ending]
      exact ⟨next, Nat.zero_lt_succ 255⟩
    · rw [if_neg (Nat.ne_of_lt more)]
      exact ⟨next, more⟩
  refine ⟨?_, ?_, moved.2, inv.driver, inv.driverIdx, inv.consumed.trans (List.prefix_append _ _), ?_,
    inv.phys⟩
  · simp only [EventSystem.post, grown]
    exact ring
  · simp only [EventSystem.post, grown]
    exact moved.1
  · simp only [EventSystem.post, grown]
    omega

/-- A poll consumes the first unconsumed event, if it is an expected one. -/
theorem poll_of_expected (inv : EventInv base s) (poll : EventPoll) {e : Trb} (next : s.next = some e)
    (expected : e.Expected) :
    EventInv base (s.poll poll) ∧ (s.poll poll).consumed = s.consumed ++ [e] ∧
      Xhci.SameEvents s.x.evtAdvance (s.poll poll).x := by
  obtain ⟨ready, here⟩ := inv.entry_of_next next
  have same := poll.run_of_expected ready (here ▸ expected)
  have advance : Cursor 256 s.x.evtAdvance.evtIdx s.x.evtAdvance.evtCycle (s.consumed.length + 1) ∧
      s.x.evtAdvance.evtIdx < 256 ∧ s.x.evtAdvance.evtIdx ≠ s.x.evtIdx := by
    rcases cursor_advance inv.driver inv.driverIdx with ⟨ending, next⟩ | ⟨more, next⟩
    · have wraps : s.x.evtIdx + 1 = ringTrbs := ending
      simp only [Xhci.evtAdvance, if_pos wraps]
      exact ⟨next, Nat.zero_lt_succ 255, by omega⟩
    · have inside : s.x.evtIdx + 1 ≠ ringTrbs := Nat.ne_of_lt more
      simp only [Xhci.evtAdvance, if_neg inside]
      exact ⟨next, more, Nat.succ_ne_self _⟩
  have moved : (poll.run s.x).evtIdx ≠ s.x.evtIdx := by
    rw [same.evtIdx]
    exact advance.2.2
  have consumed : (s.poll poll).consumed = s.consumed ++ [e] := by
    simp only [EventSystem.poll, if_neg moved, here]
  have grown : (s.consumed ++ [e]).length = s.consumed.length + 1 := by
    rw [List.length_append, List.length_singleton]
  refine ⟨⟨?_, inv.producer, inv.producerIdx, ?_, ?_, ?_, ?_, ?_⟩, consumed, same⟩
  · simp only [EventSystem.poll, same.evtRing]
    exact inv.ring
  · rw [consumed, grown]
    simp only [EventSystem.poll, same.evtIdx, same.evtCycle]
    exact advance.1
  · simp only [EventSystem.poll, same.evtIdx]
    exact advance.2.1
  · rw [consumed]
    obtain ⟨bound, rfl⟩ := List.getElem?_eq_some_iff.mp next
    exact snoc_prefix inv.consumed bound
  · rw [consumed, grown]
    exact Nat.le_trans inv.window (by omega)
  · simp only [EventSystem.poll, same.evtRingPhys]
    exact inv.phys

/-- Otherwise it changes nothing. -/
theorem poll_rests (inv : EventInv base s) (poll : EventPoll)
    (none : ∀ e, s.next = some e → ¬e.Expected) : s.poll poll = s := by
  have stays : poll.run s.x = s.x := by
    apply poll.run_rests
    rintro ⟨ready, expected⟩
    obtain ⟨e, next⟩ : ∃ e, s.next = some e := ⟨_, List.getElem?_eq_getElem (inv.ready_iff.mp ready)⟩
    rw [(inv.entry_of_next next).2] at expected
    exact none e next expected
  simp only [EventSystem.poll, stays, if_true]

theorem poll (inv : EventInv base s) (p : EventPoll) : EventInv base (s.poll p) := by
  by_cases expected : ∃ e, s.next = some e ∧ e.Expected
  · obtain ⟨e, next, expected⟩ := expected
    exact (inv.poll_of_expected p next expected).1
  · rw [inv.poll_rests p fun e next here => expected ⟨e, next, here⟩]
    exact inv

end EventInv

/-- Every step keeps the invariant. -/
theorem EventStep.inv {base : ℕ} {s t : EventSystem} {label : EventLabel} (step : EventStep s label t)
    (inv : EventInv base s) : EventInv base t := by
  cases step with
  | post e room => exact inv.post e room
  | transfer intrBuf => exact inv.congr rfl rfl rfl rfl
  | poll p => exact inv.poll p
  | handlerBegin => exact inv.congr rfl rfl rfl rfl
  | handlerEnd gotXfer =>
    rw [Xhci.handleInterruptEnd]
    simp only
    split <;> exact inv.congr rfl rfl rfl rfl

/-- After `setup_evt_ring`. -/
theorem EventInv.setup (x : Xhci) (base : ℕ) : EventInv base { x := x.setupEvtRing base } where
  ring := .empty (by decide) fun _ _ => rfl
  producer := .start 256
  producerIdx := Nat.zero_lt_succ 255
  driver := .start 256
  driverIdx := Nat.zero_lt_succ 255
  consumed := List.nil_prefix
  window := Nat.zero_le _
  phys := rfl

end RaryOS.Model
