import Mathlib.Data.List.Induction
import RaryOS.Proofs.TransferRing

/-! # What the controller executes from the rings

However the single stores of the driver and the steps of the controller interleave, the controller
executes exactly the TRBs that the calls asked for, in order, each once, and none before its last
store. This covers the command ring and the interrupt-in ring, over any number of laps.
-/

namespace RaryOS.Soundness

open RaryOS.Core RaryOS.Model

/-- The TRBs of the calls that have made all their stores. -/
def completed (s : RingSystem) : List Trb := if s.pending = [] then s.submitted else s.submitted.dropLast

/-- What the controller has executed, without the cycle bits, are the first TRBs of the completed
calls; and when the driver makes no more calls, the controller executes the rest. -/
structure Executes {κ : Type*} (driver : RingDriver κ) (s : RingSystem) : Prop where
  inOrder : s.executed.map Trb.body <+: completed s
  all : s.pending = [] → ∃ es t, Path (RingStep driver) s es t ∧ (∀ e ∈ es, e = .controller) ∧
    t.executed.map Trb.body = s.submitted

section Ring

variable {κ : Type*} {driver : RingDriver κ} {s t : RingSystem} {published : List Trb}

theorem completed_of_inv (inv : RingInv s published) : completed s = published.map Trb.body := by
  have last {item : Trb} (next : NextItem s published item) (busy : s.pending ≠ []) :
      completed s = published.map Trb.body := by
    rw [completed, if_neg busy, next.submitted, List.dropLast_concat]
  cases inv.phase with
  | idle nil submitted _ => rw [completed, if_pos nil, submitted]
  | linking pending batch _ _ _ next =>
    apply last next
    rw [pending]
    exact List.append_ne_nil_of_left_ne_nil batch.ne_nil _
  | writing batch _ _ next => exact last next batch.ne_nil

/-- Every step keeps the invariant. -/
theorem ringStep_inv {e : RingEvent κ} (step : RingStep driver s e t) :
    (∃ published, RingInv s published) → ∃ published, RingInv t published := by
  rintro ⟨published, inv⟩
  cases step with
  | submit k nil room => exact ⟨published, inv.submit driver k nil room⟩
  | store pending => exact inv.store pending
  | controller step => exact ⟨published, inv.controller step⟩

/-- The controller executes what is left, one TRB after the other. -/
theorem executes_rest (driver : RingDriver κ) (inv : RingInv s published) (nil : s.pending = []) :
    ∃ es t, Path (RingStep driver) s es t ∧ (∀ e ∈ es, e = .controller) ∧ RingInv t published ∧
      t.pending = [] ∧ t.submitted = s.submitted ∧ t.executed.map Trb.body = s.submitted := by
  obtain ⟨left, count⟩ : ∃ left, published.length = s.executed.length + left :=
    ⟨published.length - s.executed.length, by have := inv.executed.length_le; omega⟩
  induction left generalizing s with
  | zero =>
    obtain ⟨submitted, _⟩ := inv.idle_of_nil nil
    refine ⟨[], s, .nil s, fun e member => absurd member List.not_mem_nil, inv, nil, rfl, ?_⟩
    rw [submitted, inv.executed.eq_of_length count.symm]
  | succ left ih =>
    obtain ⟨first, u, path, controller, invU, nilU, submitted, more⟩ := inv.progress driver nil (by omega)
    obtain ⟨rest, t, path', controller', invT, nilT, submitted', done⟩ := ih invU nilU (by omega)
    refine ⟨first ++ rest, t, path.append path', fun e member => ?_, invT, nilT, submitted'.trans submitted,
      done.trans submitted⟩
    exact (List.mem_append.mp member).elim (controller e) (controller' e)

/-- The driver makes the stores that are left. -/
theorem stores_run (driver : RingDriver κ) (s : RingSystem) :
    ∃ es ring, Path (RingStep driver) s es { s with ring := ring, pending := [] } := by
  obtain ⟨ring, producer, pending, consumer, submitted, executed⟩ := s
  induction pending generalizing ring with
  | nil => exact ⟨[], ring, .nil _⟩
  | cons st rest ih =>
    obtain ⟨es, ring', path⟩ := ih (st.apply ring)
    exact ⟨.store :: es, ring', .cons (.store rfl) path⟩

/-- Any calls can be made and their TRBs executed, each before the next call. -/
theorem calls_run (driver : RingDriver κ) {start : RingSystem} (initial : RingInv start [])
    (nil : start.pending = []) (ks : List κ) :
    ∃ es s published, Path (RingStep driver) start es s ∧ RingInv s published ∧ s.pending = [] ∧
      s.submitted = ks.map driver.request ∧ s.executed.map Trb.body = s.submitted := by
  induction ks using List.reverseRecOn with
  | nil =>
    obtain ⟨none, _⟩ := initial.idle_of_nil nil
    refine ⟨[], start, [], .nil start, initial, nil, none, ?_⟩
    rw [List.prefix_nil.mp initial.executed, none]
  | append_singleton ks k ih =>
    obtain ⟨es, s, published, path, inv, nilS, submitted, executed⟩ := ih
    have count := congrArg List.length executed
    rw [List.length_map] at count
    have call := @RingStep.submit _ driver s k nilS (by omega)
    obtain ⟨stores, ring, written⟩ := stores_run driver _
    obtain ⟨published', inv'⟩ := written.invariant (fun t => ∃ published, RingInv t published)
      (ringStep_inv call ⟨published, inv⟩) fun _ _ _ inv step => ringStep_inv step inv
    obtain ⟨rest, t, path', _, invT, nilT, same, done⟩ := executes_rest driver inv' rfl
    refine ⟨_, t, published', (path.snoc call).append (written.append path'), invT, nilT, ?_, done.trans same.symm⟩
    rw [same, submitted, List.map_append, List.map_singleton]

/-- A ring that the setup left blank but for its link. -/
theorem ringInv_initial {ring : ℕ → Trb} (blank : ∀ slot < 255, ring slot = {})
    (link : LinkAt 0 (ring 255)) : RingInv { ring := ring } [] where
  ring := .empty (by decide) fun slot bound => congrArg Trb.cycle (blank slot bound)
  notLink _ member := absurd member List.not_mem_nil
  producer := .start 255
  started := Or.inl rfl
  consumer := .start 255
  executed := List.nil_prefix
  window := Nat.zero_le _
  phase := .idle rfl rfl link

theorem executes_of_run {start : RingSystem} (initial : RingInv start []) {es : List (RingEvent κ)}
    (run : Path (RingStep driver) start es s) : Executes driver s := by
  obtain ⟨published, inv⟩ := run.invariant (fun s => ∃ published, RingInv s published) ⟨[], initial⟩
    fun s e t inv step => ringStep_inv step inv
  refine ⟨?_, fun nil => ?_⟩
  · rw [completed_of_inv inv]
    exact inv.executed.map _
  · obtain ⟨es, t, path, controller, _, _, _, done⟩ := executes_rest driver inv nil
    exact ⟨es, t, path, controller, done⟩

end Ring

theorem setupCmdRing_inv (ringPhys : ℕ) : RingInv { ring := setupCmdRing ringPhys } [] := by
  refine ringInv_initial (fun slot bound => ?_) (Or.inr ⟨rfl, Or.inr ?_⟩)
  · exact Function.update_of_ne (by simp only [ringTrbs]; omega) _ _
  · exact congrArg Trb.control (Function.update_self (ringTrbs - 1) _ fun _ => ({} : Trb))

theorem configureEndpointRing_inv : RingInv { ring := configureEndpointRing } [] :=
  ringInv_initial (fun _ _ => rfl) (Or.inr ⟨rfl, Or.inl rfl⟩)

/-- From `setup_cmd_ring` on, for any calls of `submit_cmd`, and from `configure_endpoint` on, for any
calls of `queue_interrupt_in_async`, the controller executes exactly the submitted TRBs, in order. -/
theorem rings_execute_submitted (ringPhys : ℕ) :
    (∀ es s, Path (RingStep submitCmdDriver) { ring := setupCmdRing ringPhys } es s →
        Executes submitCmdDriver s) ∧
      ∀ es s, Path (RingStep (queueInterruptInDriver ringPhys)) { ring := configureEndpointRing } es s →
        Executes (queueInterruptInDriver ringPhys) s :=
  ⟨fun _ _ run => executes_of_run (setupCmdRing_inv ringPhys) run,
    fun _ _ run => executes_of_run configureEndpointRing_inv run⟩

/-- 600 Enable Slot commands, for which the ring wraps around twice. -/
theorem rings_execute_submitted_sample :
    ∃ es s, Path (RingStep submitCmdDriver) { ring := setupCmdRing 0x140000 } es s ∧
      s.executed.map Trb.body = List.replicate 600 ⟨0, 0, 0x2400⟩ ∧ s.producer = ⟨90, 1⟩ ∧
      Executes submitCmdDriver s := by
  obtain ⟨es, s, published, run, inv, _, submitted, executed⟩ := calls_run submitCmdDriver
    (setupCmdRing_inv 0x140000) rfl (List.replicate 600 ⟨xhciTrbEnableSlot, 0, 0, 0, by decide⟩)
  rw [List.map_replicate] at submitted
  have producer : s.producer = ⟨90, 1⟩ := by
    obtain ⟨lap, count, bound, parity⟩ := inv.producer
    rw [submitted, List.length_replicate] at count
    obtain ⟨rfl, here⟩ : lap = 2 ∧ s.producer.idx = 90 := by omega
    exact congrArg₂ RingProducer.mk here parity
  exact ⟨es, s, run, executed.trans submitted, producer, (rings_execute_submitted 0x140000).1 _ _ run⟩

end RaryOS.Soundness
