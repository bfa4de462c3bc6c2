import RaryOS.Model.Xhci
import RaryOS.Proofs.TransferRing

/-! # The transfers of the keyboard

The ring of the keyboard, its index and cycle, and the packet size decide what a transfer looks like. Handling
events leaves them alone. Queueing a transfer writes one normal TRB with the packet size as its length, and a
link at most besides.
-/

namespace RaryOS.Model

/-- Nothing that the transfers of the keyboard depend on differs. -/
structure SameTransfers (x y : Xhci) : Prop where
  intrRing : y.intrRing = x.intrRing
  intr : y.intr = x.intr
  hidEpMps : y.hidEpMps = x.hidEpMps

theorem SameTransfers.refl (x : Xhci) : SameTransfers x x := ⟨rfl, rfl, rfl⟩

theorem SameTransfers.trans {x y z : Xhci} (first : SameTransfers x y) (second : SameTransfers y z) :
    SameTransfers x z :=
  ⟨second.intrRing.trans first.intrRing, second.intr.trans first.intr, second.hidEpMps.trans first.hidEpMps⟩

/-! ## What leaves the transfers alone -/

namespace Xhci

theorem evtAdvance_transfers (x : Xhci) : SameTransfers x x.evtAdvance := ⟨rfl, rfl, rfl⟩

theorem handleInterruptBegin_transfers (x : Xhci) : SameTransfers x x.handleInterruptBegin := ⟨rfl, rfl, rfl⟩

theorem countCode_transfers (x : Xhci) (code : ℕ) : SameTransfers x (x.countCode code) := by
  rw [countCode]
  split
  · exact ⟨rfl, rfl, rfl⟩
  · exact .refl x

theorem processKey_transfers (x : Xhci) (k : ℕ) : SameTransfers x (x.processKey k) := by
  simp only [processKey]
  split_ifs <;> exact ⟨rfl, rfl, rfl⟩

theorem processKey_foldl_transfers (keys : List ℕ) (x : Xhci) : SameTransfers x (keys.foldl processKey x) := by
  induction keys generalizing x with
  | nil => exact .refl x
  | cons k keys ih => exact (x.processKey_transfers k).trans (ih (x.processKey k))

theorem processKeys_transfers (x : Xhci) : SameTransfers x x.processKeys := by
  obtain ⟨intrRing, intr, hidEpMps⟩ := processKey_foldl_transfers ((List.range 6).map fun i => x.intrBuf (2 + i)) x
  exact ⟨intrRing, intr, hidEpMps⟩

theorem handleEvent_transfers {x y : Xhci} {keyboard : Bool} (handled : x.handleEvent = some (y, keyboard)) :
    SameTransfers x y := by
  simp only [handleEvent] at handled
  split_ifs at handled <;> cases handled
  · exact x.evtAdvance_transfers.trans ((countCode_transfers _ _).trans (processKeys_transfers _))
  · exact x.evtAdvance_transfers.trans (countCode_transfers _ _)
  · exact x.evtAdvance_transfers

end Xhci

/-! ## Queueing a transfer -/

theorem interruptTrb_type (k : InterruptIn) : (interruptTrb k).type = xhciTrbNormal := by
  simp only [interruptTrb, Trb.type]
  rfl

/-- One normal TRB is queued; what else changes is the link. -/
structure TransferQueued (intrBufPhys hidEpMps : ℕ) (p : RingProducer) (before after : ℕ → Trb) (next : RingProducer) :
    Prop where
  queued : ∃ idx cycle, cycle ≤ 1 ∧ after idx = (interruptTrb ⟨intrBufPhys, hidEpMps⟩).withCycle cycle ∧
    ∀ s, s ≠ idx → after s = before s ∨ (after s).type = xhciTrbLink
  cycle : next.cycle ≤ 1
  idx : next.idx ≤ 255

theorem queueInterruptIn_queued (ringPhys intrBufPhys hidEpMps : ℕ) {p : RingProducer} (bit : p.cycle ≤ 1)
    (inside : p.idx ≤ 255) (ring : ℕ → Trb) :
    TransferQueued intrBufPhys hidEpMps p ring
      (applyStores (queueInterruptIn ringPhys intrBufPhys hidEpMps p).1 ring)
      (queueInterruptIn ringPhys intrBufPhys hidEpMps p).2 := by
  rcases Nat.lt_or_eq_of_le inside with before | last
  · have call : queueInterruptIn ringPhys intrBufPhys hidEpMps p = _ :=
      (queueInterruptInDriver ringPhys).inside p ⟨intrBufPhys, hidEpMps⟩ bit before
    rw [call]
    refine ⟨⟨p.idx, p.cycle, bit, applyStores_trbStores _ _ _, fun s other => Or.inl ?_⟩, bit, before⟩
    exact (trbStores_batch _ _).applyStores_other other ring
  · obtain ⟨link, batch, call⟩ := (queueInterruptInDriver ringPhys).wraps p ⟨intrBufPhys, hidEpMps⟩ bit last
    replace call : queueInterruptIn ringPhys intrBufPhys hidEpMps p = _ := call
    rw [call, applyStores_append]
    refine ⟨⟨0, 1 - p.cycle, by omega, applyStores_trbStores _ _ _, fun s other => ?_⟩, by simp only; omega,
      by simp only; omega⟩
    rw [(trbStores_batch _ _).applyStores_other other]
    rcases eq_or_ne s 255 with rfl | elsewhere
    · have word := batch.applyStores_control ring
      have fields := linkControl_fields bit (applyStores link ring 255).parameter (applyStores link ring 255).status
      rw [← word] at fields
      exact Or.inr fields.2.1
    · exact Or.inl (batch.applyStores_other elsewhere ring)

end RaryOS.Model
