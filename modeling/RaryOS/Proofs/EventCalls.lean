import RaryOS.Proofs.EventRing

/-! # Whole calls on the event ring

`HandlerLoop` and `WaitLoop` are the loops of `handle_interrupt` and of the waiting functions while the
controller goes on posting. A loop consumes expected events up to the first one of another type, and
never passes that one.
-/

namespace RaryOS.Model

open RaryOS.Core

/-- The events that are posted and not consumed. -/
def EventSystem.unconsumed (s : EventSystem) : List Trb := s.posted.drop s.consumed.length

/-- A step of the controller, at any time. -/
def EventLabel.isController : EventLabel → Bool
  | post _ => true
  | transfer _ => true
  | _ => false

/-- The loop of `handle_interrupt`, with `budget` iterations left, from one state to another. -/
inductive HandlerLoop : (budget : ℕ) → EventSystem → EventSystem → Prop
  | exhausted (s : EventSystem) : HandlerLoop 0 s s
  | leave {budget : ℕ} {s : EventSystem} : s.x.handleEvent = none → HandlerLoop (budget + 1) s s
  | iterate {budget : ℕ} {s t : EventSystem} : s.x.handleEvent ≠ none →
      HandlerLoop budget (s.poll .handleInterrupt) t → HandlerLoop (budget + 1) s t
  | controller {budget : ℕ} {s mid t : EventSystem} {label : EventLabel} : label.isController = true →
      EventStep s label mid → HandlerLoop budget mid t → HandlerLoop budget s t

/-- The event with which a poll ends its loop. -/
def EventPoll.found : EventPoll → Xhci → Option Trb
  | waitCmd cmdPhys, x => (x.waitCmdPoll cmdPhys).2
  | waitXfer trbPhys, x => (x.waitXferPoll trbPhys).2
  | handleInterrupt, _ => none

/-- The event that the loop of a poll waits for. -/
def EventPoll.Awaits : EventPoll → Trb → Prop
  | waitCmd cmdPhys, e => e.type = xhciTrbCmdCmpl ∧ e.parameter = cmdPhys
  | waitXfer trbPhys, e => e.type = xhciTrbXferEvt ∧ e.parameter = trbPhys
  | handleInterrupt, _ => False

/-- The loop of `wait_cmd` or of `wait_xfer`, with `left` iterations left: how many it makes, and the
event that it returns with. -/
inductive WaitLoop (poll : EventPoll) : (left : ℕ) → EventSystem → (polls : ℕ) → Option Trb →
    EventSystem → Prop
  | timeout (s : EventSystem) : WaitLoop poll 0 s 0 none s
  | found {left : ℕ} {s : EventSystem} {e : Trb} : poll.found s.x = some e →
      WaitLoop poll (left + 1) s 1 (some e) (s.poll poll)
  | again {left polls : ℕ} {s t : EventSystem} {result : Option Trb} : poll.found s.x = none →
      WaitLoop poll left (s.poll poll) polls result t → WaitLoop poll (left + 1) s (polls + 1) result t
  | controller {left polls : ℕ} {s mid t : EventSystem} {result : Option Trb} {label : EventLabel} :
      label.isController = true → EventStep s label mid → WaitLoop poll left mid polls result t →
      WaitLoop poll left s polls result t

theorem EventPoll.Awaits.expected {poll : EventPoll} {e : Trb} (awaits : poll.Awaits e) : e.Expected := by
  cases poll with
  | waitCmd cmdPhys => exact Or.inr (Or.inl awaits.1)
  | waitXfer trbPhys => exact Or.inl awaits.1
  | handleInterrupt => exact awaits.elim

namespace EventInv

variable {base : ℕ} {s t : EventSystem}

theorem next_eq (s : EventSystem) : s.next = s.unconsumed.head? := by
  rw [EventSystem.next, EventSystem.unconsumed, List.head?_drop]

/-- The first unconsumed event is the one a poll looks at. -/
theorem found_of_next (inv : EventInv base s) (poll : EventPoll) {e : Trb} (next : s.next = some e)
    (awaits : poll.Awaits e) : poll.found s.x = some e := by
  obtain ⟨ready, here⟩ := inv.entry_of_next next
  have expected : (s.x.evtRing s.x.evtIdx).Expected := here ▸ awaits.expected
  cases poll with
  | waitCmd cmdPhys =>
    rw [EventPoll.found, Xhci.waitCmdPoll, Xhci.waitPoll_of_expected Xhci.awaits_cmd _ ready expected, here]
    exact if_pos awaits
  | waitXfer trbPhys =>
    rw [EventPoll.found, Xhci.waitXferPoll, Xhci.waitPoll_of_expected Xhci.awaits_xfer _ ready expected, here]
    exact if_pos awaits
  | handleInterrupt => exact awaits.elim

/-- A poll that looks at no awaited event does not end its loop. -/
theorem found_none (inv : EventInv base s) (poll : EventPoll)
    (others : ∀ e, s.next = some e → ¬poll.Awaits e) : poll.found s.x = none := by
  by_cases seen : s.x.Ready ∧ (s.x.evtRing s.x.evtIdx).Expected
  · obtain ⟨ready, expected⟩ := seen
    have other := others _ (show s.next = some (s.x.evtRing s.x.evtIdx) from by
      have next : s.next = some _ := List.getElem?_eq_getElem (inv.ready_iff.mp ready)
      rw [next, (inv.entry_of_next next).2])
    cases poll with
    | waitCmd cmdPhys =>
      rw [EventPoll.found, Xhci.waitCmdPoll, Xhci.waitPoll_of_expected Xhci.awaits_cmd _ ready expected]
      exact if_neg other
    | waitXfer trbPhys =>
      rw [EventPoll.found, Xhci.waitXferPoll, Xhci.waitPoll_of_expected Xhci.awaits_xfer _ ready expected]
      exact if_neg other
    | handleInterrupt => rfl
  · cases poll with
    | waitCmd cmdPhys =>
      rw [EventPoll.found, Xhci.waitCmdPoll, Xhci.waitPoll_rests Xhci.awaits_cmd cmdPhys seen]
    | waitXfer trbPhys =>
      rw [EventPoll.found, Xhci.waitXferPoll, Xhci.waitPoll_rests Xhci.awaits_xfer trbPhys seen]
    | handleInterrupt => rfl

/-- An iteration of `handle_interrupt` goes on exactly when the first unconsumed event is expected. -/
theorem handleEvent_none_iff (inv : EventInv base s) :
    s.x.handleEvent = none ↔ ∀ e, s.next = some e → ¬e.Expected := by
  constructor
  · intro none e next expected
    obtain ⟨ready, here⟩ := inv.entry_of_next next
    obtain ⟨y, keyboard, step, _⟩ := Xhci.handleEvent_of_expected ready (here ▸ expected)
    rw [none] at step
    cases step
  · intro unexpected
    apply Xhci.handleEvent_rests
    rintro ⟨ready, expected⟩
    have next : s.next = some _ := List.getElem?_eq_getElem (inv.ready_iff.mp ready)
    rw [(inv.entry_of_next next).2] at expected
    exact unexpected _ next expected

/-- A step of the controller consumes nothing, and at most posts behind what is there. -/
theorem controller {label : EventLabel} (controls : label.isController = true)
    (step : EventStep s label t) :
    t.consumed = s.consumed ∧ ∃ more, t.posted = s.posted ++ more := by
  cases step with
  | post e room => exact ⟨rfl, [_], rfl⟩
  | transfer intrBuf => exact ⟨rfl, [], (List.append_nil _).symm⟩
  | poll => cases controls
  | handlerBegin => cases controls
  | handlerEnd => cases controls

theorem unconsumed_append (inv : EventInv base s) {more : List Trb} (consumed : t.consumed = s.consumed)
    (posted : t.posted = s.posted ++ more) : t.unconsumed = s.unconsumed ++ more := by
  rw [EventSystem.unconsumed, EventSystem.unconsumed, consumed, posted,
    List.drop_append_of_le_length inv.consumed.length_le]

theorem unconsumed_poll (inv : EventInv base s) (poll : EventPoll) {e : Trb} {rest : List Trb}
    (due : s.unconsumed = e :: rest) (expected : e.Expected) : (s.poll poll).unconsumed = rest := by
  have next : s.next = some e := by rw [next_eq, due, List.head?_cons]
  obtain ⟨_, consumed, _⟩ := inv.poll_of_expected poll next expected
  rw [EventSystem.unconsumed, consumed, List.length_append, List.length_singleton, ← List.drop_drop]
  change List.drop 1 s.unconsumed = rest
  rw [due, List.drop_one, List.tail_cons]

end EventInv

/-- The loop of `handle_interrupt` consumes some expected events, and if these are fewer than its
budget, then an expected one is not next. -/
structure HandlerOutcome (base budget : ℕ) (s t : EventSystem) (taken : List Trb) : Prop where
  inv : EventInv base t
  consumed : t.consumed = s.consumed ++ taken
  expected : ∀ e ∈ taken, e.Expected
  bounded : taken.length ≤ budget
  stopped : taken.length < budget → ∀ e, t.next = some e → ¬e.Expected

theorem HandlerLoop.outcome {base budget : ℕ} {s t : EventSystem} (loop : HandlerLoop budget s t)
    (inv : EventInv base s) : ∃ taken, HandlerOutcome base budget s t taken := by
  induction loop with
  | exhausted s =>
    exact ⟨[], inv, (List.append_nil _).symm, fun e member => absurd member List.not_mem_nil,
      Nat.le_refl 0, fun below => absurd below (Nat.lt_irrefl 0)⟩
  | leave none =>
    exact ⟨[], inv, (List.append_nil _).symm, fun e member => absurd member List.not_mem_nil,
      Nat.zero_le _, fun _ => inv.handleEvent_none_iff.mp none⟩
  | @iterate budget s t goes _ ih =>
    obtain ⟨e, next, expected⟩ : ∃ e, s.next = some e ∧ e.Expected := by
      by_contra unexpected
      exact goes (inv.handleEvent_none_iff.mpr fun e next here => unexpected ⟨e, next, here⟩)
    obtain ⟨after, consumed, _⟩ := inv.poll_of_expected .handleInterrupt next expected
    obtain ⟨taken, outcome⟩ := ih after
    refine ⟨e :: taken, outcome.inv, ?_, ?_, Nat.succ_le_succ outcome.bounded, fun below => ?_⟩
    · rw [outcome.consumed, consumed, List.append_assoc, List.singleton_append]
    · intro other member
      rcases List.mem_cons.mp member with rfl | later
      · exact expected
      · exact outcome.expected other later
    · exact outcome.stopped (Nat.lt_of_succ_lt_succ below)
  | controller controls step _ ih =>
    obtain ⟨taken, outcome⟩ := ih (step.inv inv)
    obtain ⟨same, _⟩ := EventInv.controller controls step
    exact ⟨taken, outcome.inv, same ▸ outcome.consumed, outcome.expected, outcome.bounded,
      outcome.stopped⟩

namespace WaitLoop

variable {base : ℕ} {poll : EventPoll}

/-- The loop passes over expected events and returns with the awaited one. -/
theorem returns {left polls : ℕ} {s t : EventSystem} {result : Option Trb}
    (loop : WaitLoop poll left s polls result t) (inv : EventInv base s) {before rest : List Trb} {e : Trb}
    (due : s.unconsumed = before ++ e :: rest) (awaited : poll.Awaits e)
    (others : ∀ q ∈ before, ¬poll.Awaits q) (expected : ∀ q ∈ before, q.Expected)
    (enough : before.length + 1 ≤ left) : result = some e ∧ polls = before.length + 1 := by
  induction loop generalizing before rest with
  | timeout => omega
  | @found left s first found =>
    cases before with
    | nil =>
      have next : s.next = some e := by rw [EventInv.next_eq, due, List.nil_append, List.head?_cons]
      rw [inv.found_of_next poll next awaited] at found
      exact ⟨found.symm, rfl⟩
    | cons q before =>
      have next : s.next = some q := by rw [EventInv.next_eq, due, List.cons_append, List.head?_cons]
      have none := inv.found_none poll fun other here => by
        rw [next, Option.some.injEq] at here
        exact here ▸ others q List.mem_cons_self
      rw [none] at found
      cases found
  | @again left polls s t result none _ ih =>
    cases before with
    | nil =>
      have next : s.next = some e := by rw [EventInv.next_eq, due, List.nil_append, List.head?_cons]
      rw [inv.found_of_next poll next awaited] at none
      cases none
    | cons q before =>
      have left := inv.unconsumed_poll poll due (expected q List.mem_cons_self)
      obtain ⟨same, count⟩ := ih (inv.poll poll) left
        (fun r member => others r (List.mem_cons_of_mem q member))
        (fun r member => expected r (List.mem_cons_of_mem q member))
        (by rw [List.length_cons] at enough; omega)
      exact ⟨same, by rw [count, List.length_cons]⟩
  | controller controls step _ ih =>
    obtain ⟨consumed, more, posted⟩ := EventInv.controller controls step
    have grown := inv.unconsumed_append consumed posted
    rw [due, List.append_assoc, List.cons_append] at grown
    exact ih (step.inv inv) grown others expected enough

/-- The loop never passes over an event of another type. -/
theorem stuck {left polls : ℕ} {s t : EventSystem} {result : Option Trb}
    (loop : WaitLoop poll left s polls result t) (inv : EventInv base s) {before rest : List Trb} {e : Trb}
    (due : s.unconsumed = before ++ e :: rest) (unexpected : ¬e.Expected)
    (others : ∀ q ∈ before, ¬poll.Awaits q) : result = none := by
  induction loop generalizing before rest with
  | timeout => rfl
  | @found left s first found =>
    have none := inv.found_none poll fun other next => by
      rw [EventInv.next_eq, due] at next
      cases before with
      | nil =>
        rw [List.nil_append, List.head?_cons, Option.some.injEq] at next
        exact fun awaits => unexpected (next ▸ awaits.expected)
      | cons q before =>
        rw [List.cons_append, List.head?_cons, Option.some.injEq] at next
        exact next ▸ others q List.mem_cons_self
    rw [none] at found
    cases found
  | @again left polls s t result none _ ih =>
    by_cases moves : ∃ q rest, s.unconsumed = q :: rest ∧ q.Expected
    · obtain ⟨q, tail, cons, expected⟩ := moves
      have left := inv.unconsumed_poll poll cons expected
      rw [cons] at due
      cases before with
      | nil =>
        rw [List.nil_append, List.cons.injEq] at due
        exact absurd (due.1 ▸ expected) unexpected
      | cons r before =>
        rw [List.cons_append, List.cons.injEq] at due
        exact ih (inv.poll poll) (left.trans due.2) fun p member =>
          others p (List.mem_cons_of_mem r member)
    · have rests : s.poll poll = s := by
        refine inv.poll_rests poll fun q next expected => moves ?_
        rw [EventInv.next_eq] at next
        obtain ⟨rest, cons⟩ := List.head?_eq_some_iff.mp next
        exact ⟨q, rest, cons, expected⟩
      rw [rests] at ih
      exact ih inv due others
  | controller controls step _ ih =>
    obtain ⟨consumed, more, posted⟩ := EventInv.controller controls step
    have grown := inv.unconsumed_append consumed posted
    rw [due, List.append_assoc, List.cons_append] at grown
    exact ih (step.inv inv) grown others

end WaitLoop

/-! ## The functions themselves are such loops -/

theorem handleEvents_loop (budget : ℕ) (s : EventSystem) (gotXfer : Bool) :
    ∃ t, HandlerLoop budget s t ∧ t.x = (s.x.handleEvents budget gotXfer).1 ∧ t.posted = s.posted := by
  induction budget generalizing s gotXfer with
  | zero => exact ⟨s, .exhausted s, rfl, rfl⟩
  | succ budget ih =>
    cases event : s.x.handleEvent with
    | none => exact ⟨s, .leave event, by rw [Xhci.handleEvents, event], rfl⟩
    | some outcome =>
      obtain ⟨y, keyboard⟩ := outcome
      obtain ⟨t, loop, same, posted⟩ := ih (s.poll .handleInterrupt) (gotXfer || keyboard)
      have here : (s.poll .handleInterrupt).x = y := by
        rw [EventSystem.poll, EventPoll.run, event]
        rfl
      refine ⟨t, .iterate (event ▸ Option.some_ne_none _) loop, ?_, posted⟩
      rw [same, here, Xhci.handleEvents, event]

theorem waitEvents_loop (poll : EventPoll) (run : Xhci → Xhci × Option Trb)
    (same : ∀ x, run x = (poll.run x, poll.found x)) (left : ℕ) (s : EventSystem) :
    ∃ polls t, WaitLoop poll left s polls (Xhci.waitEvents run left s.x).2 t ∧
      t.x = (Xhci.waitEvents run left s.x).1 ∧ t.posted = s.posted := by
  induction left generalizing s with
  | zero => exact ⟨0, s, .timeout s, rfl, rfl⟩
  | succ left ih =>
    cases found : poll.found s.x with
    | some e =>
      have done : Xhci.waitEvents run (left + 1) s.x = (poll.run s.x, some e) := by
        rw [Xhci.waitEvents, same, found]
      rw [done]
      exact ⟨1, _, .found found, rfl, rfl⟩
    | none =>
      have goes : Xhci.waitEvents run (left + 1) s.x = Xhci.waitEvents run left (poll.run s.x) := by
        rw [Xhci.waitEvents, same, found]
      obtain ⟨polls, t, loop, result, posted⟩ := ih (s.poll poll)
      rw [goes]
      exact ⟨polls + 1, t, .again found loop, result, posted⟩

end RaryOS.Model
