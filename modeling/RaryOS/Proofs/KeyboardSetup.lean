import RaryOS.Core.BitFields
import RaryOS.Model.KeyboardSetup
import RaryOS.Proofs.HidKeyboard
import RaryOS.Proofs.KeyboardTransfers

/-! # What `setup_keyboard` leaves

Waiting for the controller consumes events and touches nothing else, so what an accepted setup leaves for the
transfers is decided by the configuration descriptor: a blank ring, and the packet size of the endpoint that
was found in it.
-/

namespace RaryOS.Model

open RaryOS.Core

namespace Xhci

theorem waitPoll_transfers (awaited other address : ℕ) (x : Xhci) :
    SameTransfers x (x.waitPoll awaited other address).1 := by
  simp only [waitPoll]
  split_ifs
  · exact .refl x
  · exact x.evtAdvance_transfers
  · exact x.evtAdvance_transfers
  · exact x.evtAdvance_transfers
  · exact .refl x

/-- Waiting keeps what every poll keeps. -/
theorem waitAnswered_transfers (x : Xhci) {poll : Xhci → Xhci × Option Trb} (keeps : ∀ x, SameTransfers x (poll x).1)
    (ring : PolledRing) (polls : ℕ) : SameTransfers x (x.waitAnswered poll ring polls).1 := by
  induction polls generalizing x with
  | zero => exact .refl x
  | succ polls ih =>
    have written : SameTransfers x { x with evtRing := ring polls } := ⟨rfl, rfl, rfl⟩
    have here := written.trans (keeps { x with evtRing := ring polls })
    rw [waitAnswered]
    split
    · next y e polled => exact polled ▸ here
    · next y polled =>
      rw [polled] at here
      exact here.trans (ih y)

end Xhci

theorem Xhci.ringDoorbell_transfers (x : Xhci) (slot value : ℕ) : SameTransfers x (x.ringDoorbell slot value) :=
  ⟨rfl, rfl, rfl⟩

theorem Xhci.awaitCmd_transfers (x : Xhci) (cmdPhys : ℕ) (answer : PolledRing) :
    SameTransfers x (x.awaitCmd cmdPhys answer).1 :=
  x.waitAnswered_transfers (waitPoll_transfers _ _ _) answer waitPolls

/-! ## The calls -/

/-- The descriptor of the configuration as it lies in `ctrl_buf`, with what follows the requested bytes. -/
def receivedConfig (s : SetupState) (a : SetupAnswers) : Memory := fun i =>
  if i < 256 then a.configBytes i else s.ctrlBuf i

namespace SetupState

variable (s : SetupState) (slot : ℕ) (answer : PolledRing)

theorem submitCmd_transfers (type param : ℕ) : SameTransfers s.x (s.submitCmd type param slot answer).1.x :=
  (s.x.ringDoorbell_transfers 0 0).trans (Xhci.awaitCmd_transfers _ _ answer)

theorem controlXfer_ctrlBuf (r : ControlRequest) : (s.controlXfer slot r answer).1.ctrlBuf = s.ctrlBuf := by
  rw [controlXfer]
  split <;> rfl

theorem getDescriptor_ctrlBuf (type idx : BitVec 8) (len : BitVec 16) (bytes : Memory) :
    (s.getDescriptor slot type idx len bytes answer).1.ctrlBuf =
      fun i => if i < len.toNat then bytes i else s.ctrlBuf i := by
  have kept := s.controlXfer_ctrlBuf slot answer (.getDescriptor type idx s.ctrlBufPhys len)
  rw [getDescriptor]
  generalize s.controlXfer slot (.getDescriptor type idx s.ctrlBufPhys len) answer = call at kept
  rw [← kept]

/-- `configure_endpoint` leaves a blank ring. -/
theorem configureEndpoint_ring : (s.configureEndpoint slot answer).1.x.intrRing = configureEndpointRing ∧
    (s.configureEndpoint slot answer).1.x.intr = {} ∧
    (s.configureEndpoint slot answer).1.x.hidEpMps = s.x.hidEpMps := by
  have kept := submitCmd_transfers { s with x := { s.x with intrRing := configureEndpointRing, intr := {} } } slot
    answer xhciTrbConfigEp s.inputCtxPhys
  rw [configureEndpoint]
  generalize submitCmd _ _ _ _ _ = call at kept ⊢
  exact ⟨kept.intrRing, kept.intr, kept.hidEpMps⟩

variable (a : SetupAnswers) (k : HidKeyboard)

/-- After the endpoint was found: a failure, or a blank ring and the packet size of the endpoint. -/
theorem configureKeyboard_cases : (s.configureKeyboard slot k a).2 = -1 ∨
    ((s.configureKeyboard slot k a).1.x.intrRing = configureEndpointRing ∧
      (s.configureKeyboard slot k a).1.x.intr = {} ∧ (s.configureKeyboard slot k a).1.x.hidEpMps = k.mps) := by
  simp only [configureKeyboard]
  split
  · exact Or.inl rfl
  · split
    · exact Or.inl rfl
    · exact Or.inr (configureEndpoint_ring _ slot a.configureEndpoint)

/-- After the two requests for descriptors the second one is in `ctrl_buf`. -/
theorem getDescriptor_received {t : SetupState} (kept : t.ctrlBuf = s.ctrlBuf) :
    (((t.getDescriptor slot 0x01 0 18 a.deviceBytes a.deviceDescriptor).1).getDescriptor slot 0x02 0 256 a.configBytes
      a.configDescriptor).1.ctrlBuf = receivedConfig s a := by
  funext i
  rw [getDescriptor_ctrlBuf, getDescriptor_ctrlBuf, kept, receivedConfig]
  rcases Nat.lt_or_ge i 256 with requested | beyond
  · exact (if_pos requested).trans (if_pos requested).symm
  · have short : ¬i < (18 : BitVec 16).toNat := Nat.not_lt.mpr (Nat.le_trans (by decide) beyond)
    exact (if_neg (Nat.not_lt.mpr beyond)).trans ((if_neg short).trans (if_neg (Nat.not_lt.mpr beyond)).symm)

/-- `setup_keyboard`: a failure, or the endpoint is configured that was found in the descriptor. -/
theorem setupKeyboard_cases : (s.setupKeyboard a).2 = -1 ∨ ∃ t slot k,
    findHidKeyboard (receivedConfig s a) (configTotal (receivedConfig s a)) = some (0, k) ∧
      s.setupKeyboard a = configureKeyboard t slot k a := by
  have addressed : ∀ slot, ((s.enableSlot a.enableSlot).1.addressDevice slot a.addressDevice).1.ctrlBuf = s.ctrlBuf :=
    fun _ => rfl
  simp only [setupKeyboard]
  split
  · exact Or.inl rfl
  · split
    · exact Or.inl rfl
    · split
      · exact Or.inl rfl
      · split
        · exact Or.inl rfl
        · split
          · next k found =>
            rw [getDescriptor_received s _ a (addressed _)] at found
            exact Or.inr ⟨_, _, k, found, rfl⟩
          · exact Or.inl rfl

/-- What an accepted setup leaves for the transfers. -/
theorem setupKeyboard_accepted (accepted : 0 ≤ (s.setupKeyboard a).2) : ∃ k,
    findHidKeyboard (receivedConfig s a) (configTotal (receivedConfig s a)) = some (0, k) ∧
      (s.setupKeyboard a).1.x.intrRing = configureEndpointRing ∧ (s.setupKeyboard a).1.x.intr = {} ∧
        (s.setupKeyboard a).1.x.hidEpMps = k.mps := by
  rcases s.setupKeyboard_cases a with failed | ⟨t, slot, k, found, here⟩
  · rw [failed] at accepted
    exact absurd accepted (by decide)
  · rw [here] at accepted ⊢
    rcases t.configureKeyboard_cases slot a k with failed | left
    · rw [failed] at accepted
      exact absurd accepted (by decide)
    · exact ⟨k, found, left⟩

end SetupState

/-- The total length is a 16-bit field. -/
theorem configTotal_small (ctrlBuf : Memory) : configTotal ctrlBuf + 1024 ≤ 2 ^ 32 := by
  have low := (ctrlBuf 2).isLt
  have high := (ctrlBuf 3).isLt
  rw [configTotal, or_shiftLeft_of_lt low]
  omega

end RaryOS.Model
