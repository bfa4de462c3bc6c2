import RaryOS.Proofs.EventCalls

/-! # Which events block the event ring

`handle_interrupt`, `wait_cmd` and `wait_xfer` leave an event of another type than transfer event,
command completion and port change where it is, and nothing else ever moves the event index. So a call
does what it is for exactly when there is no such event in front.
-/

namespace RaryOS.Soundness

open RaryOS.Core RaryOS.Model

/-- A call of `handle_interrupt` that did not use up its budget has come to the end of the events. -/
def HandlerDrains (s t : EventSystem) : Prop :=
  t.consumed.length < s.consumed.length + ringTrbs → ¬t.x.Ready

/-- A call of `wait_cmd` or `wait_xfer` returns the code of the event after `ahead` others, in time. -/
def WaitDelivers (e : Trb) (ahead polls : ℕ) (result : Option Trb) : Prop :=
  waitCode result = e.code ∧ polls ≤ ahead + 1

/-- The events that a call of `handle_interrupt` may come to: unconsumed before it or posted during it,
up to its budget. -/
def handlerDue (s t : EventSystem) : List Trb := (t.posted.drop s.consumed.length).take ringTrbs

private theorem handlerDrains_iff {base : ℕ} {s t : EventSystem} (inv : EventInv base s)
    (loop : HandlerLoop ringTrbs s t) : HandlerDrains s t ↔ ∀ e ∈ handlerDue s t, e.Expected := by
  obtain ⟨taken, outcome⟩ := loop.outcome inv
  -- what the call consumed, and what is left
  have split : t.posted.drop s.consumed.length = taken ++ t.unconsumed := by
    obtain ⟨left, posted⟩ := outcome.inv.consumed
    have rest : t.unconsumed = left := by
      rw [EventSystem.unconsumed, ← posted, List.drop_left]
    rw [rest, ← posted, outcome.consumed, List.append_assoc, List.drop_left]
  have count : t.consumed.length = s.consumed.length + taken.length := by
    rw [outcome.consumed, List.length_append]
  rw [HandlerDrains, handlerDue, split]
  constructor
  · intro drains e member
    rcases Nat.lt_or_ge taken.length ringTrbs with below | full
    · have ended := drains (by omega)
      rw [outcome.inv.ready_iff, Nat.not_lt] at ended
      rw [EventSystem.unconsumed, List.drop_eq_nil_of_le ended, List.append_nil] at member
      exact outcome.expected e (List.mem_of_mem_take member)
    · rw [List.take_append_of_le_length full] at member
      exact outcome.expected e (List.mem_of_mem_take member)
  · intro expected below ready
    obtain ⟨e, next⟩ : ∃ e, t.next = some e :=
      ⟨_, List.getElem?_eq_getElem (outcome.inv.ready_iff.mp ready)⟩
    refine outcome.stopped (by omega) e next (expected e ?_)
    rw [EventInv.next_eq] at next
    obtain ⟨rest, cons⟩ := List.head?_eq_some_iff.mp next
    rw [cons, List.take_append, List.mem_append]
    apply Or.inr
    obtain ⟨room, positive⟩ : ∃ room, ringTrbs - taken.length = room + 1 :=
      ⟨ringTrbs - taken.length - 1, by omega⟩
    rw [positive, List.take_succ_cons]
    exact List.mem_cons_self

private theorem waitDelivers_iff {base : ℕ} {poll : EventPoll} {s t : EventSystem} {polls : ℕ}
    {result : Option Trb} {before rest : List Trb} {e : Trb} (inv : EventInv base s)
    (due : s.unconsumed = before ++ e :: rest) (awaited : poll.Awaits e)
    (others : ∀ q ∈ before, ¬poll.Awaits q) (enough : before.length + 1 ≤ Xhci.waitPolls)
    (loop : WaitLoop poll Xhci.waitPolls s polls result t) :
    WaitDelivers e before.length polls result ↔ ∀ q ∈ before, q.Expected := by
  constructor
  · rintro ⟨code, _⟩ q member
    by_contra unexpected
    obtain ⟨first, second, rfl⟩ := List.append_of_mem member
    rw [List.append_assoc, List.cons_append] at due
    have none := loop.stuck inv due unexpected fun r earlier =>
      others r (List.mem_append_left _ earlier)
    rw [none] at code
    have := Int.natCast_nonneg e.code
    simp only [waitCode] at code
    omega
  · intro expected
    obtain ⟨same, count⟩ := loop.returns inv due awaited others expected enough
    exact ⟨by rw [same, waitCode], count.le⟩

/-- Whatever events the controller has posted since `setup_evt_ring` and goes on posting: a call of
`handle_interrupt` drains the ring exactly when the events it may come to are expected ones, and a call
of `wait_cmd` or `wait_xfer` delivers the awaited event exactly when those in front of it are. -/
theorem events_pass_iff (x : Xhci) (base : ℕ) (es : List EventLabel) (s : EventSystem)
    (run : Path EventStep { x := x.setupEvtRing base } es s) :
    (∀ t, HandlerLoop ringTrbs s t → (HandlerDrains s t ↔ ∀ e ∈ handlerDue s t, e.Expected)) ∧
      ∀ poll before e rest, s.unconsumed = before ++ e :: rest → poll.Awaits e →
        (∀ q ∈ before, ¬poll.Awaits q) → before.length + 1 ≤ Xhci.waitPolls →
        ∀ polls result t, WaitLoop poll Xhci.waitPolls s polls result t →
          (WaitDelivers e before.length polls result ↔ ∀ q ∈ before, q.Expected) := by
  have inv : EventInv base s := run.invariant (EventInv base) (.setup x base) fun s label t inv step =>
    step.inv inv
  refine ⟨fun t loop => handlerDrains_iff inv loop, ?_⟩
  intro poll before e rest due awaited others enough polls result t loop
  exact waitDelivers_iff inv due awaited others enough loop

/-- The driver after `setup_evt_ring`, and the controller has posted two events. -/
private def posted (first second : Trb) : EventSystem :=
  let start : EventSystem := { x := ({ evtRingPhys := 0 } : Xhci).setupEvtRing 0x180000 }
  (start.post first).post second

private theorem posted_run (first second : Trb) :
    Path EventStep { x := ({ evtRingPhys := 0 } : Xhci).setupEvtRing 0x180000 }
      [.post first, .post second] (posted first second) :=
  .cons (.post first (Nat.zero_le _)) (.cons (.post second (Nat.le_add_left 1 254)) (.nil _))

/-- The completion of the command at `0x140000`. -/
private def completion : Trb := ⟨0x140000, 1 <<< 24, 33 <<< 10 + 1⟩

/-- With a port change in front of the completion, both calls do what they are for. -/
theorem events_pass_iff_sample :
    ∃ s t u, Path EventStep { x := ({ evtRingPhys := 0 } : Xhci).setupEvtRing 0x180000 }
        [.post ⟨0, 0, 34 <<< 10⟩, .post completion] s ∧
      (HandlerLoop ringTrbs s t ∧ HandlerDrains s t) ∧
      WaitLoop (.waitCmd 0x140000) Xhci.waitPolls s 2 (some completion) u ∧
      WaitDelivers completion 1 2 (some completion) := by
  have pass := events_pass_iff _ 0x180000 _ _ (posted_run ⟨0, 0, 34 <<< 10⟩ completion)
  have handler : HandlerLoop ringTrbs (posted ⟨0, 0, 34 <<< 10⟩ completion) _ :=
    .iterate (by decide) (.iterate (by decide) (.leave (by decide)))
  have wait : WaitLoop (.waitCmd 0x140000) Xhci.waitPolls (posted ⟨0, 0, 34 <<< 10⟩ completion) 2
      (some completion) _ :=
    .again (by decide) (.found (by decide))
  refine ⟨_, _, _, posted_run _ _, ⟨handler, (pass.1 _ handler).mpr (by decide)⟩, wait, ?_⟩
  refine (pass.2 (.waitCmd 0x140000) [⟨0, 0, 34 <<< 10 + 1⟩] completion [] (by decide)
    ⟨by decide, by decide⟩ ?_ (by decide) 2 _ _ wait).mpr (by decide)
  intro q member awaits
  rw [List.mem_singleton.mp member] at awaits
  exact absurd awaits.1 (by decide)

/-- With a host controller event, type 37, in front of it, `handle_interrupt` leaves both where they
are. -/
theorem events_pass_blocked :
    ∃ s t, Path EventStep { x := ({ evtRingPhys := 0 } : Xhci).setupEvtRing 0x180000 }
        [.post ⟨0, 0, 37 <<< 10⟩, .post completion] s ∧
      HandlerLoop ringTrbs s t ∧ ¬HandlerDrains s t := by
  refine ⟨_, _, posted_run _ _, @HandlerLoop.leave 255 _ (by decide), fun drains => ?_⟩
  exact drains (by decide) (by decide)

end RaryOS.Soundness
