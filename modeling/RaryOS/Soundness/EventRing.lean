import RaryOS.Proofs.EventRing

/-! # What the driver consumes from the event ring

The controller posts transfer events, command completions and port changes, at most 255 of them ahead
of the driver. However the polls of `wait_cmd`, `wait_xfer` and `handle_interrupt` interleave with the
posts, the driver consumes the posted events in order, each once, and tells the controller how far it
has come.
-/

namespace RaryOS.Soundness

open RaryOS.Core RaryOS.Model

/-- The register writes that give `ERDP` the address `address`, with the busy bit. -/
def AcknowledgesAt (address : ℕ) (writes : List (XhciReg × ℕ)) : Prop :=
  ∃ low high, writes = [(.erdpLow, low), (.erdpHigh, high)] ∧ low < 2 ^ 32 ∧ high < 2 ^ 32 ∧
    low + 2 ^ 32 * high = address ||| 1 <<< 3

/-- The address of the entry of event `k`. -/
def evtAddress (base k : ℕ) : ℕ := base + 16 * (k % ringTrbs)

/-- What was consumed are the first posted events. A poll consumes the first unconsumed event, if there
is one, and acknowledges up to the one after it; if there is none, it changes nothing. -/
structure ConsumesInOrder (base : ℕ) (s : EventSystem) : Prop where
  inOrder : s.consumed <+: s.posted
  consumes : ∀ poll e, s.next = some e → (s.poll poll).consumed = s.consumed ++ [e] ∧
    ∃ writes, (s.poll poll).x.mmio = s.x.mmio ++ writes ∧
      AcknowledgesAt (evtAddress base (s.poll poll).consumed.length) writes
  rests : ∀ poll, s.next = none → s.poll poll = s

/-- The two halves of an address, with bit 3 set in the low one. -/
private theorem acknowledges_halves {address : ℕ} (bound : address < 2 ^ 64) :
    AcknowledgesAt address
      [(.erdpLow, address % 2 ^ 32 ||| 1 <<< 3), (.erdpHigh, address / 2 ^ 32)] := by
  have low : address % 2 ^ 32 < 2 ^ 32 := Nat.mod_lt _ (by decide)
  have lowBit : address % 2 ^ 32 ||| 1 <<< 3 < 2 ^ 32 := Nat.or_lt_two_pow low (by decide)
  refine ⟨_, _, rfl, lowBit, Nat.div_lt_of_lt_mul (by omega), ?_⟩
  have disjoint (n : ℕ) (small : n < 2 ^ 32) : n + 2 ^ 32 * (address / 2 ^ 32) =
      2 ^ 32 * (address / 2 ^ 32) ||| n := by
    rw [Nat.add_comm, Nat.two_pow_add_eq_or_of_lt small]
  calc (address % 2 ^ 32 ||| 1 <<< 3) + 2 ^ 32 * (address / 2 ^ 32)
      = 2 ^ 32 * (address / 2 ^ 32) ||| (address % 2 ^ 32 ||| 1 <<< 3) := disjoint _ lowBit
    _ = 2 ^ 32 * (address / 2 ^ 32) ||| address % 2 ^ 32 ||| 1 <<< 3 := (Nat.or_assoc ..).symm
    _ = address ||| 1 <<< 3 := by
      rw [← disjoint _ low, Nat.mod_add_div]

/-- `evt_advance` writes the address of the entry that it moves to. -/
private theorem evtAdvance_mmio (x : Xhci) (fits : x.evtRingPhys + 16 * ringTrbs ≤ 2 ^ 64)
    (inside : x.evtAdvance.evtIdx < ringTrbs) :
    ∃ writes, x.evtAdvance.mmio = x.mmio ++ writes ∧
      AcknowledgesAt (x.evtRingPhys + 16 * x.evtAdvance.evtIdx) writes := by
  have bound : x.evtRingPhys + 16 * x.evtAdvance.evtIdx < 2 ^ 64 := by omega
  have address : (x.evtRingPhys + x.evtAdvance.evtIdx * 16) % 2 ^ 64 =
      x.evtRingPhys + 16 * x.evtAdvance.evtIdx := by
    rw [Nat.mul_comm, Nat.mod_eq_of_lt bound]
  refine ⟨_, ?_, acknowledges_halves bound⟩
  rw [← address]
  rfl

private theorem consumesInOrder_of_inv {base : ℕ} (fits : base + 16 * ringTrbs ≤ 2 ^ 64)
    {s : EventSystem} (inv : EventInv base s) (expected : ∀ e ∈ s.posted, e.Expected) :
    ConsumesInOrder base s := by
  refine ⟨inv.consumed, fun poll e next => ?_, fun poll none => ?_⟩
  · have here := expected e (List.mem_of_getElem? next)
    obtain ⟨after, consumed, same⟩ := inv.poll_of_expected poll next here
    have slot : s.x.evtAdvance.evtIdx = (s.poll poll).consumed.length % ringTrbs := by
      rw [← same.evtIdx]
      exact (after.driver.slot after.driverIdx).1.symm
    have inside : s.x.evtAdvance.evtIdx < ringTrbs := by
      rw [slot]
      exact Nat.mod_lt _ (by decide)
    obtain ⟨writes, mmio, acknowledges⟩ := evtAdvance_mmio s.x (by rwa [inv.phys]) inside
    refine ⟨consumed, writes, same.mmio.trans mmio, ?_⟩
    rw [inv.phys, slot] at acknowledges
    exact acknowledges
  · apply inv.poll_rests poll
    intro e next
    rw [none] at next
    cases next

/-- Every step keeps the invariant, and posts expected events only if its label does. -/
private theorem eventStep_expected {base : ℕ} {s t : EventSystem} {label : EventLabel}
    (allowed : ∀ e, label = .post e → e.Expected) (step : EventStep s label t)
    (start : EventInv base s ∧ ∀ e ∈ s.posted, e.Expected) :
    EventInv base t ∧ ∀ e ∈ t.posted, e.Expected := by
  refine ⟨step.inv start.1, ?_⟩
  cases step with
  | post e room =>
    intro other member
    rcases List.mem_append.mp member with earlier | new
    · exact start.2 other earlier
    · rw [List.mem_singleton.mp new]
      have bit := RingProducer.bit start.1.producer
      simpa only [Trb.Expected, Trb.withCycle_type e bit] using allowed e rfl
  | transfer => exact start.2
  | poll => exact start.2
  | handlerBegin => exact start.2
  | handlerEnd => exact start.2

/-- From `setup_evt_ring` on, in every run in which the controller posts expected events only, the
driver consumes them in order, each once. -/
theorem events_consumed_in_order (x : Xhci) (base : ℕ) (fits : base + 16 * ringTrbs ≤ 2 ^ 64)
    (es : List EventLabel) (s : EventSystem) (run : Path EventStep { x := x.setupEvtRing base } es s)
    (expected : ∀ e, .post e ∈ es → e.Expected) : ConsumesInOrder base s := by
  have labels : ∀ label ∈ es, ∀ e, label = .post e → e.Expected :=
    fun label member e here => expected e (here ▸ member)
  have inv := run.invariant_of_labels (fun s => EventInv base s ∧ ∀ e ∈ s.posted, e.Expected) labels
    ⟨.setup x base, fun e member => absurd member List.not_mem_nil⟩
    fun s label t allowed start step => eventStep_expected allowed step start
  exact consumesInOrder_of_inv fits inv.1 inv.2

/-- Expected events, each consumed by a poll before the next one is posted. -/
theorem events_in_turn {base : ℕ} {s : EventSystem} (inv : EventInv base s) (drained : s.consumed = s.posted)
    (turns : List (Trb × EventPoll)) (expected : ∀ turn ∈ turns, turn.1.Expected) :
    ∃ t, Path EventStep s (turns.flatMap fun turn => [.post turn.1, .poll turn.2]) t ∧ EventInv base t ∧
      t.consumed.map Trb.body = s.consumed.map Trb.body ++ turns.map fun turn => turn.1.body := by
  induction turns generalizing s with
  | nil => exact ⟨s, .nil s, inv, (List.append_nil _).symm⟩
  | cons turn rest ih =>
    obtain ⟨first, others⟩ := List.forall_mem_cons.mp expected
    have bit := RingProducer.bit inv.producer
    have room : s.posted.length ≤ s.consumed.length + 255 := by
      rw [drained]
      exact Nat.le_add_right _ _
    have next : (s.post turn.1).next = some (turn.1.withCycle s.producer.cycle) := by
      simp only [EventSystem.next, EventSystem.post, drained, List.getElem?_concat_length]
    have entry : (turn.1.withCycle s.producer.cycle).Expected := by
      simpa only [Trb.Expected, Trb.withCycle_type turn.1 bit] using first
    obtain ⟨inv', consumed, _⟩ := (inv.post turn.1 room).poll_of_expected turn.2 next entry
    have consumed : ((s.post turn.1).poll turn.2).consumed = s.consumed ++ [turn.1.withCycle s.producer.cycle] :=
      consumed
    obtain ⟨t, path, invT, done⟩ := ih inv' (consumed.trans (congrArg (· ++ _) drained)) others
    refine ⟨t, .cons (.post _ room) (.cons (.poll _ _) path), invT, ?_⟩
    rw [done, consumed, List.map_append, List.map_singleton, Trb.body_withCycle _ bit, List.append_assoc,
      List.singleton_append, List.map_cons]

/-- 255 port changes that polls of `wait_cmd` pass over, a transfer event for the handler, and behind the wrap a
command completion that `wait_xfer` passes over. -/
def sampleTurns : List (Trb × EventPoll) :=
  List.replicate 255 (⟨0, 0, 34 <<< 10⟩, .waitCmd 0x140000) ++
    [(⟨0, 0, 32 <<< 10⟩, .handleInterrupt), (⟨0, 0, 33 <<< 10⟩, .waitXfer 0x160000)]

theorem events_consumed_in_order_sample :
    ∃ s, Path EventStep { x := ({ evtRingPhys := 0 } : Xhci).setupEvtRing 0x180000 }
        (sampleTurns.flatMap fun turn => [.post turn.1, .poll turn.2]) s ∧
      s.consumed.map Trb.body = sampleTurns.map Prod.fst ∧ s.x.evtIdx = 1 ∧ s.x.evtCycle = 0 ∧
      ConsumesInOrder 0x180000 s := by
  have expected : ∀ turn ∈ sampleTurns, turn.1.Expected := by
    rw [sampleTurns, List.forall_mem_append]
    refine ⟨fun turn member => ?_, by decide⟩
    rw [List.eq_of_mem_replicate member]
    decide
  have bodies : (sampleTurns.map fun turn => turn.1.body) = sampleTurns.map Prod.fst := by
    rw [sampleTurns, List.map_append, List.map_append, List.map_replicate, List.map_replicate]
    rfl
  obtain ⟨s, run, inv, consumed⟩ := events_in_turn (.setup { evtRingPhys := 0 } 0x180000) rfl sampleTurns expected
  rw [List.map_nil, List.nil_append] at consumed
  have count : s.consumed.length = 257 := by
    rw [← List.length_map Trb.body, consumed, List.length_map, sampleTurns, List.length_append, List.length_replicate]
    rfl
  obtain ⟨lap, total, _, parity⟩ := inv.driver
  rw [count] at total
  have inside := inv.driverIdx
  obtain ⟨rfl, here⟩ : lap = 1 ∧ s.x.evtIdx = 1 := by omega
  refine ⟨s, run, consumed.trans bodies, here, parity, events_consumed_in_order _ _ (by decide) _ _ run ?_⟩
  intro e member
  obtain ⟨turn, of, labels⟩ := List.mem_flatMap.mp member
  simp only [List.mem_cons, EventLabel.post.injEq, List.not_mem_nil, or_false, reduceCtorEq] at labels
  rw [labels]
  exact expected turn of

end RaryOS.Soundness
