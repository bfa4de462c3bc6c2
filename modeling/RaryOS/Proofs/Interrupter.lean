import RaryOS.Model.Interrupter
import RaryOS.Proofs.EventCalls

/-! # The driver, the event ring and the interrupter

`WakeSystem` puts the interrupter beside the driver and the controller. The driver makes the register writes of a step
one by one before it goes on, and the controller posts events between them. `RingNoticed` says what `ERDP` and the busy
bit tell of the ring at every moment.
-/

namespace RaryOS.Model

open RaryOS.Core

/-- Where the driver is: in a loop of `setup_keyboard`, outside of the driver, or in `handle_interrupt`. -/
inductive DriverPhase where
  | polling
  | idle
  | handling (budget : ℕ) (gotXfer : Bool)

/-- The events, the interrupter, and the register writes that the driver makes before it goes on. -/
structure WakeSystem where
  events : EventSystem
  ir : Interrupter := {}
  phase : DriverPhase := .polling
  writes : List InterrupterWrite := []

namespace WakeSystem

/-- The address of an entry of the ring. -/
def entry (s : WakeSystem) (idx : ℕ) : ℕ := s.events.x.evtRingPhys + idx * 16

/-- Where the controller puts the next event. -/
def next (s : WakeSystem) : ℕ := s.entry s.events.producer.idx

/-- The driver has done a step, except for the register writes of it. -/
def go (s : WakeSystem) (events : EventSystem) (phase : DriverPhase) : WakeSystem :=
  { s with
    events := events
    phase := phase
    writes := (events.x.mmio.drop s.events.x.mmio.length).map fun w => (.driver w.1, w.2) }

/-- The driver goes on without polling. -/
def goOn (s : WakeSystem) (x : Xhci) (phase : DriverPhase) : WakeSystem := s.go { s.events with x := x } phase

/-- After `setup_evt_ring`. -/
def start (x : Xhci) (base : ℕ) : WakeSystem where
  events := { x := x.setupEvtRing base }
  ir := (({} : Interrupter).write base (.driver .erdpLow, base % 2 ^ 32)).write base (.driver .erdpHigh, base / 2 ^ 32)

end WakeSystem

inductive WakeLabel where
  | post (e : Trb)
  | transfer (intrBuf : ℕ → ℕ)
  | moderation
  | write
  | poll (p : EventPoll)
  | enable (cmd : ℕ)
  | arm (kbslot : ℕ)
  | interrupt
  | iterate
  | leave

/-- A step that needs neither the controller nor another part of the kernel. -/
def WakeLabel.isDriver : WakeLabel → Bool
  | write => true
  | interrupt => true
  | iterate => true
  | leave => true
  | _ => false

/-- A step of the controller: it posts an event where the ring has room, writes the data of a transfer, or the time
between two interrupts is over. Or one of the driver: a register write, a poll of `setup_keyboard`,
`enable_interrupter`, the first transfer of `run`, the processor taking the message, an iteration of
`handle_interrupt`, or its end. -/
inductive WakeStep : WakeSystem → WakeLabel → WakeSystem → Prop
  | post {s : WakeSystem} (e : Trb) : s.ir.erdp ≠ s.entry s.events.producer.advance.idx →
      WakeStep s (.post e)
        { s with events := s.events.post e, ir := s.ir.notice (s.entry s.events.producer.advance.idx) }
  | transfer (s : WakeSystem) (intrBuf : ℕ → ℕ) :
      WakeStep s (.transfer intrBuf)
        { s with events := { s.events with x := { s.events.x with intrBuf := intrBuf } } }
  | moderation (s : WakeSystem) : WakeStep s .moderation { s with ir := s.ir.raise s.next }
  | write {s : WakeSystem} {w : InterrupterWrite} {rest : List InterrupterWrite} : s.writes = w :: rest →
      WakeStep s .write { s with ir := s.ir.write s.next w, writes := rest }
  | poll {s : WakeSystem} (p : EventPoll) : s.phase = .polling → s.writes = [] → p ≠ .handleInterrupt →
      WakeStep s (.poll p) (s.go (s.events.poll p) .polling)
  | enable {s : WakeSystem} (cmd : ℕ) : s.phase = .polling → s.writes = [] →
      WakeStep s (.enable cmd) { s with phase := .idle, writes := enableInterrupter cmd }
  | arm {s : WakeSystem} (kbslot : ℕ) : s.phase = .idle → s.writes = [] →
      WakeStep s (.arm kbslot) (s.goOn (s.events.x.armKeyboard kbslot) .idle)
  | interrupt {s : WakeSystem} : s.phase = .idle → s.writes = [] → s.ir.message = true →
      WakeStep s .interrupt
        { s.goOn s.events.x.handleInterruptBegin (.handling ringTrbs false) with
          ir := { s.ir with message := false } }
  | iterate {s : WakeSystem} {budget : ℕ} {gotXfer keyboard : Bool} {y : Xhci} :
      s.phase = .handling (budget + 1) gotXfer → s.writes = [] → s.events.x.handleEvent = some (y, keyboard) →
      WakeStep s .iterate (s.go (s.events.poll .handleInterrupt) (.handling budget (gotXfer || keyboard)))
  | leave {s : WakeSystem} {budget : ℕ} {gotXfer : Bool} : s.phase = .handling budget gotXfer → s.writes = [] →
      budget = 0 ∨ s.events.x.handleEvent = none →
      WakeStep s .leave (s.goOn (s.events.x.handleInterruptEnd gotXfer) .idle)

/-! ## The interrupter by itself -/

section Interrupter

variable {i : Interrupter} {next : ℕ}

/-- The registers that only the driver changes. -/
structure SameControls (i j : Interrupter) : Prop where
  erdp : j.erdp = i.erdp
  enabled : j.enabled = i.enabled
  interval : j.interval = i.interval
  inte : j.inte = i.inte

/-- The interrupter has told of an event. -/
def Notified (i : Interrupter) : Prop := i.pending = true ∨ i.message = true

/-- No enabled interrupt is kept back. -/
def Sent (i : Interrupter) : Prop := i.pending = true → i.enabled = true → i.inte = true → False

theorem send_controls (i : Interrupter) : SameControls i i.send ∧ i.send.busy = i.busy := by
  rw [Interrupter.send]
  split
  · exact ⟨⟨rfl, rfl, rfl, rfl⟩, rfl⟩
  · exact ⟨⟨rfl, rfl, rfl, rfl⟩, rfl⟩

theorem send_sent (i : Interrupter) : Sent i.send := by
  rw [Interrupter.send]
  split
  · intro pending
    cases pending
  · next kept =>
    intro pending enabled inte
    exact kept (by rw [pending, enabled, inte]; rfl)

theorem send_notified (i : Interrupter) : Notified i.send ↔ Notified i := by
  rw [Interrupter.send]
  split
  · next sends =>
    rw [Bool.and_eq_true, Bool.and_eq_true] at sends
    exact ⟨fun _ => Or.inl sends.1.1, fun _ => Or.inr rfl⟩
  · exact Iff.rfl

/-- Without the enable bit nothing is sent. -/
theorem send_of_disabled (disabled : i.enabled = false) : i.send = i := by
  rw [Interrupter.send, disabled, Bool.and_false, Bool.false_and]
  rfl

theorem send_of_clear (clear : i.pending = false) : i.send = i := by
  rw [Interrupter.send, clear, Bool.false_and, Bool.false_and]
  rfl

/-- What a look at the ring does to the interrupter. -/
structure Looks (i j : Interrupter) (next : ℕ) : Prop where
  controls : SameControls i j
  busy : j.busy = true → i.busy = true ∨ i.erdp ≠ next
  sent : Sent i → Sent j
  notified : Notified i → Notified j
  disabled : i.enabled = false → j.message = i.message

theorem raise_looks (i : Interrupter) (next : ℕ) : Looks i (i.raise next) next := by
  rw [Interrupter.raise]
  split
  · exact ⟨⟨rfl, rfl, rfl, rfl⟩, Or.inl, id, id, fun _ => rfl⟩
  · next looks =>
    rw [Bool.or_eq_true, not_or, decide_eq_true_eq] at looks
    obtain ⟨controls, _⟩ := send_controls { i with busy := true, pending := true }
    refine ⟨⟨controls.erdp, controls.enabled, controls.interval, controls.inte⟩, fun _ => Or.inr looks.2,
      fun _ => send_sent _, fun _ => (send_notified _).mpr (Or.inl rfl), fun disabled => ?_⟩
    have kept : ({ i with busy := true, pending := true } : Interrupter).send =
        { i with busy := true, pending := true } := send_of_disabled disabled
    rw [kept]

theorem notice_looks (i : Interrupter) (next : ℕ) : Looks i (i.notice next) next := by
  rw [Interrupter.notice]
  split
  · exact raise_looks i next
  · exact ⟨⟨rfl, rfl, rfl, rfl⟩, Or.inl, id, id, fun _ => rfl⟩

/-- A busy interrupter notices nothing. -/
theorem raise_of_busy (busy : i.busy = true) : i.raise next = i := by
  rw [Interrupter.raise, busy, Bool.true_or, if_pos rfl]

theorem notice_of_busy (busy : i.busy = true) : i.notice next = i := by
  rw [Interrupter.notice, raise_of_busy busy, ite_self]

theorem notice_of_moderated (moderated : i.interval ≠ 0) : i.notice next = i := if_neg moderated

/-- An interrupter that is not busy notices an event at once, if interrupts are not moderated. -/
theorem notice_raises (interval : i.interval = 0) (idle : i.busy = false) (some : i.erdp ≠ next) :
    (i.notice next).busy = true ∧ Notified (i.notice next) := by
  have looks : ¬(i.busy || decide (i.erdp = next)) = true := by
    rw [idle, Bool.false_or, decide_eq_true_eq]
    exact some
  rw [Interrupter.notice, if_pos interval, Interrupter.raise, if_neg looks]
  exact ⟨(send_controls _).2, (send_notified _).mpr (Or.inl rfl)⟩

end Interrupter

/-! ## The ring as the interrupter knows it -/

/-- A half of `ERDP`. -/
def IsErdp (w : InterrupterWrite) : Prop := w.1 = .driver .erdpLow ∨ w.1 = .driver .erdpHigh

/-- A register other than `ERDP`. -/
def Unrelated (reg : XhciReg) : Prop := reg ≠ .erdpLow ∧ reg ≠ .erdpHigh

theorem unrelated_usbsts : Unrelated .usbsts := ⟨XhciReg.noConfusion, XhciReg.noConfusion⟩

theorem unrelated_iman : Unrelated .iman := ⟨XhciReg.noConfusion, XhciReg.noConfusion⟩

theorem unrelated_doorbell (slot : ℕ) : Unrelated (.doorbell slot) := ⟨XhciReg.noConfusion, XhciReg.noConfusion⟩

theorem Unrelated.driver {reg : XhciReg} (other : Unrelated reg) : InterrupterReg.driver reg ≠ .driver .erdpLow :=
  fun same => other.1 (InterrupterReg.driver.inj same)

theorem Unrelated.not_erdp {reg : XhciReg} {v : ℕ} (other : Unrelated reg) : ¬IsErdp (.driver reg, v) := by
  rintro (low | high)
  · exact other.driver low
  · exact other.2 (InterrupterReg.driver.inj high)

/-- The writes that are left acknowledge all the consumed events but the last, or all of them. -/
inductive Acks (base : ℕ) : List InterrupterWrite → (acked consumed : ℕ) → Prop
  | done {writes : List InterrupterWrite} {n : ℕ} :
      (∀ w ∈ writes, w.1 ≠ .driver .erdpLow ∧ (w.1 = .driver .erdpHigh → w.2 = 0)) → Acks base writes n n
  | due (n : ℕ) :
      Acks base [(.driver .erdpLow, base + (n + 1) % 256 * 16 ||| 1 <<< 3), (.driver .erdpHigh, 0)] n (n + 1)

/-- What holds all the time: `ERDP` is the address of entry `k`, and the interrupter is busy only if an event was
posted there. Unless interrupts are moderated it is busy then. -/
structure RingNoticed (base k : ℕ) (s : WakeSystem) : Prop where
  events : EventInv base s.events
  expected : ∀ e ∈ s.events.posted, e.Expected
  erdp : s.ir.erdp = base + k % 256 * 16
  acked : k ≤ s.events.posted.length
  room : s.events.posted.length ≤ k + 255
  acks : Acks base s.writes k s.events.consumed.length
  busy : s.ir.busy = true → k < s.events.posted.length
  noticed : s.ir.interval = 0 → k < s.events.posted.length → s.ir.busy = true
  sent : Sent s.ir

/-- Two entries less than a lap apart have different addresses. -/
theorem entry_ne_iff {base k n : ℕ} (le : k ≤ n) (near : n ≤ k + 255) :
    base + k % 256 * 16 ≠ base + n % 256 * 16 ↔ k < n := by
  constructor
  · intro other
    apply Nat.lt_of_le_of_ne le
    rintro rfl
    exact other rfl
  · intro less same
    exact slot_ne less (show n < k + 256 by omega) (by omega)

section Ring

variable {base k : ℕ} {s : WakeSystem}

theorem Acks.le {writes : List InterrupterWrite} {k n : ℕ} (acks : Acks base writes k n) : k ≤ n := by
  cases acks with
  | done => exact Nat.le_refl k
  | due => exact Nat.le_succ k

theorem Acks.other {w : InterrupterWrite} {rest : List InterrupterWrite} {k n : ℕ} (acks : Acks base (w :: rest) k n)
    (other : w.1 ≠ .driver .erdpLow) : (w.1 = .driver .erdpHigh → w.2 = 0) ∧ Acks base rest k n := by
  cases acks with
  | done plain => exact ⟨(plain w List.mem_cons_self).2, .done fun v member => plain v (List.mem_cons_of_mem w member)⟩
  | due => exact absurd rfl other

theorem Acks.erdp {v : ℕ} {rest : List InterrupterWrite} {k n : ℕ}
    (acks : Acks base ((.driver .erdpLow, v) :: rest) k n) :
    v = base + (k + 1) % 256 * 16 ||| 1 <<< 3 ∧ n = k + 1 ∧ rest = [(.driver .erdpHigh, 0)] := by
  cases acks with
  | done plain => exact absurd rfl (plain _ List.mem_cons_self).1
  | due => exact ⟨rfl, rfl, rfl⟩

theorem Acks.eq_of_nil {k n : ℕ} (acks : Acks base [] k n) : k = n := by
  cases acks
  rfl

/-- A step that writes no register. -/
theorem go_rests (s : WakeSystem) (phase : DriverPhase) :
    s.go s.events phase = { s with phase := phase, writes := [] } := by
  rw [WakeSystem.go, List.drop_length, List.map_nil]

/-- The writes of `evt_advance`, for a ring below 4 GiB. -/
theorem go_advance (s : WakeSystem) (events : EventSystem) (phase : DriverPhase)
    (mmio : events.x.mmio = s.events.x.evtAdvance.mmio) (low : base + 16 * ringTrbs ≤ 2 ^ 32)
    (phys : s.events.x.evtRingPhys = base) {n : ℕ} (slot : s.events.x.evtAdvance.evtIdx = n % 256) :
    (s.go events phase).writes =
      [(.driver .erdpLow, base + n % 256 * 16 ||| 1 <<< 3), (.driver .erdpHigh, 0)] := by
  have bound : n % 256 < 256 := Nat.mod_lt n (by decide)
  rw [ringTrbs] at low
  have fits : base + n % 256 * 16 < 2 ^ 32 := by omega
  have address : (s.events.x.evtRingPhys + s.events.x.evtAdvance.evtIdx * 16) % 2 ^ 64 = base + n % 256 * 16 := by
    rw [phys, slot, Nat.mod_eq_of_lt (by omega)]
  have advance : s.events.x.evtAdvance.mmio = s.events.x.mmio ++
      [(.erdpLow, (s.events.x.evtRingPhys + s.events.x.evtAdvance.evtIdx * 16) % 2 ^ 64 % 2 ^ 32 ||| 1 <<< 3),
        (.erdpHigh, (s.events.x.evtRingPhys + s.events.x.evtAdvance.evtIdx * 16) % 2 ^ 64 / 2 ^ 32)] := rfl
  simp only [WakeSystem.go, mmio, advance, List.drop_left, address, Nat.mod_eq_of_lt fits, Nat.div_eq_of_lt fits,
    List.map_cons, List.map_nil]

namespace RingNoticed

theorem acknowledged (ring : RingNoticed base k s) (done : s.writes = []) : k = s.events.consumed.length := by
  have acks := ring.acks
  rw [done] at acks
  exact acks.eq_of_nil

theorem next_eq (ring : RingNoticed base k s) : s.next = base + s.events.posted.length % 256 * 16 := by
  obtain ⟨slot, _⟩ := ring.events.producer.slot ring.events.producerIdx
  rw [WakeSystem.next, WakeSystem.entry, ring.events.phys, slot]

theorem advance_eq (ring : RingNoticed base k s) :
    s.entry s.events.producer.advance.idx = base + (s.events.posted.length + 1) % 256 * 16 := by
  rw [WakeSystem.entry, ring.events.phys, RingProducer.advance, ringTrbs]
  rcases cursor_advance ring.events.producer ring.events.producerIdx with ⟨ending, next⟩ | ⟨more, next⟩
  · rw [if_pos ending, (next.slot (Nat.zero_lt_succ 255)).1]
  · rw [if_neg (Nat.ne_of_lt more), (next.slot more).1]

/-- The controller has an event for the driver exactly when its place is not the one in `ERDP`. -/
theorem nonempty_iff (ring : RingNoticed base k s) : s.ir.erdp ≠ s.next ↔ k < s.events.posted.length := by
  rw [ring.erdp, ring.next_eq]
  exact entry_ne_iff ring.acked ring.room

/-- An event is posted and noticed. -/
theorem post (ring : RingNoticed base k s) {e : Trb} (expected : e.Expected)
    (free : s.ir.erdp ≠ s.entry s.events.producer.advance.idx) :
    RingNoticed base k
      { s with events := s.events.post e, ir := s.ir.notice (s.entry s.events.producer.advance.idx) } := by
  have grown : (s.events.post e).posted.length = s.events.posted.length + 1 := by
    rw [EventSystem.post, List.length_append, List.length_singleton]
  have behind := ring.acked
  have ahead := ring.room
  have acked := ring.acks.le
  rw [ring.erdp, ring.advance_eq] at free
  have room : s.events.posted.length + 1 ≤ k + 255 := by
    rcases Nat.lt_or_ge (s.events.posted.length) (k + 255) with more | full
    · exact more
    · rw [show s.events.posted.length + 1 = k + 256 by omega, Nat.add_mod_right] at free
      exact absurd rfl free
  have looks := notice_looks s.ir (s.entry s.events.producer.advance.idx)
  refine ⟨ring.events.post e (by omega), ?_, looks.controls.erdp.trans ring.erdp, ?_, ?_, ring.acks, fun _ => ?_,
    fun interval _ => ?_, looks.sent ring.sent⟩
  · intro other member
    rcases List.mem_append.mp member with earlier | new
    · exact ring.expected other earlier
    · rw [List.mem_singleton.mp new]
      have bit := RingProducer.bit ring.events.producer
      simpa only [Trb.Expected, Trb.withCycle_type e bit] using expected
  · simp only [grown]
    omega
  · simp only [grown]
    exact room
  · simp only [grown]
    omega
  · cases before : s.ir.busy with
    | true =>
      simp only [notice_of_busy before]
      exact before
    | false =>
      refine (notice_raises (looks.controls.interval.symm.trans interval) before ?_).1
      rw [ring.erdp, ring.advance_eq]
      exact free

/-- Data is transferred. -/
theorem transfer (ring : RingNoticed base k s) (intrBuf : ℕ → ℕ) :
    RingNoticed base k { s with events := { s.events with x := { s.events.x with intrBuf := intrBuf } } } :=
  ⟨ring.events.congr rfl rfl rfl rfl, ring.expected, ring.erdp, ring.acked, ring.room, ring.acks, ring.busy,
    ring.noticed, ring.sent⟩

/-- The interrupter changes, with the same address in `ERDP`. -/
theorem withInterrupter (ring : RingNoticed base k s) {j : Interrupter} (erdp : j.erdp = s.ir.erdp)
    (busy : j.busy = true → s.ir.busy = true ∨ s.ir.erdp ≠ s.next)
    (noticed : j.interval = 0 → k < s.events.posted.length → j.busy = true) (sent : Sent j) :
    RingNoticed base k { s with ir := j } where
  events := ring.events
  expected := ring.expected
  erdp := erdp.trans ring.erdp
  acked := ring.acked
  room := ring.room
  acks := ring.acks
  busy more := (busy more).elim ring.busy ring.nonempty_iff.mp
  noticed := noticed
  sent := sent

/-- The interrupter looks at the ring again. -/
theorem look (ring : RingNoticed base k s) {j : Interrupter} (looks : Looks s.ir j s.next)
    (stays : s.ir.busy = true → j = s.ir) : RingNoticed base k { s with ir := j } :=
  ring.withInterrupter looks.controls.erdp looks.busy (fun interval more => by
    have busy := ring.noticed (looks.controls.interval.symm.trans interval) more
    rw [stays busy]
    exact busy) (looks.sent ring.sent)

theorem withWrites (ring : RingNoticed base k s) {writes : List InterrupterWrite}
    (acks : Acks base writes k s.events.consumed.length) : RingNoticed base k { s with writes := writes } :=
  ⟨ring.events, ring.expected, ring.erdp, ring.acked, ring.room, acks, ring.busy, ring.noticed, ring.sent⟩

/-- Another bit of the driver, and what is sent then. -/
theorem send (ring : RingNoticed base k s) {j : Interrupter} (erdp : j.erdp = s.ir.erdp) (busy : j.busy = s.ir.busy)
    (interval : j.interval = s.ir.interval) : RingNoticed base k { s with ir := j.send } := by
  obtain ⟨controls, sameBusy⟩ := send_controls j
  refine ring.withInterrupter (controls.erdp.trans erdp) (fun more => Or.inl ?_) (fun zero more => ?_) (send_sent j)
  · rw [← busy, ← sameBusy]
    exact more
  · rw [sameBusy, busy]
    exact ring.noticed (interval.symm.trans (controls.interval.symm.trans zero)) more

/-- Another interval, and what is noticed then. -/
theorem notice (ring : RingNoticed base k s) {j : Interrupter} (erdp : j.erdp = s.ir.erdp) (busy : j.busy = s.ir.busy)
    (sent : Sent j) : RingNoticed base k { s with ir := j.notice s.next } := by
  have looks := notice_looks j s.next
  refine ring.withInterrupter (looks.controls.erdp.trans erdp) (fun more => ?_) (fun zero more => ?_) (looks.sent sent)
  · rw [← busy, ← erdp]
    exact looks.busy more
  · cases before : j.busy with
    | true =>
      rw [notice_of_busy before]
      exact before
    | false =>
      refine (notice_raises (looks.controls.interval.symm.trans zero) before ?_).1
      rw [erdp]
      exact ring.nonempty_iff.mpr more

theorem erdp_lt (ring : RingNoticed base k s) (low : base + 16 * ringTrbs ≤ 2 ^ 32) : s.ir.erdp < 2 ^ 32 := by
  have bound : k % 256 < 256 := Nat.mod_lt k (by decide)
  rw [ringTrbs] at low
  rw [ring.erdp]
  omega

/-- A register write other than to the low half of `ERDP`. -/
theorem write_other (ring : RingNoticed base k s) (low : base + 16 * ringTrbs ≤ 2 ^ 32) {w : InterrupterWrite}
    {rest : List InterrupterWrite} (due : s.writes = w :: rest) (other : w.1 ≠ .driver .erdpLow) :
    RingNoticed base k { s with ir := s.ir.write s.next w, writes := rest } := by
  have acks := ring.acks
  rw [due] at acks
  obtain ⟨here, left⟩ := acks.other other
  suffices written : RingNoticed base k { s with ir := s.ir.write s.next w } from written.withWrites left
  obtain ⟨reg, v⟩ := w
  cases reg with
  | usbcmd => exact ring.send rfl rfl rfl
  | imod => exact ring.notice rfl rfl ring.sent
  | driver reg =>
    cases reg with
    | usbsts => exact ring
    | doorbell slot => exact ring
    | iman => exact ring.send rfl rfl rfl
    | erdpLow => exact absurd rfl other
    | erdpHigh =>
      obtain rfl : v = 0 := here rfl
      refine ring.notice ?_ rfl ring.sent
      change 0 * 2 ^ 32 + s.ir.erdp % 2 ^ 32 = s.ir.erdp
      rw [Nat.zero_mul, Nat.zero_add, Nat.mod_eq_of_lt (ring.erdp_lt low)]

/-- The address of an entry as the low half of `ERDP` holds it. -/
theorem erdp_low (address : ℕ) (aligned : address % 16 = 0) (fits : address + 16 ≤ 2 ^ 32) :
    (address ||| 1 <<< 3) % 2 ^ 32 / 16 * 16 = address ∧ (address ||| 1 <<< 3).testBit 3 = true := by
  have sum : address ||| 1 <<< 3 = address + 8 := by
    have parts : 2 ^ 4 * (address / 16) = address := by omega
    calc address ||| 1 <<< 3 = 2 ^ 4 * (address / 16) ||| 1 <<< 3 := by rw [parts]
      _ = 2 ^ 4 * (address / 16) + 1 <<< 3 := (Nat.two_pow_add_eq_or_of_lt (by decide) _).symm
      _ = address + 8 := by rw [parts]; rfl
  constructor
  · rw [sum]
    omega
  · rw [Nat.testBit_or]
    exact Bool.or_true _

/-- A write to the low half of `ERDP`. -/
theorem write_erdp (ring : RingNoticed base k s) (low : base + 16 * ringTrbs ≤ 2 ^ 32) (aligned : base % 16 = 0) {v : ℕ}
    {rest : List InterrupterWrite} (due : s.writes = (.driver .erdpLow, v) :: rest) :
    RingNoticed base (k + 1) { s with ir := s.ir.write s.next (.driver .erdpLow, v), writes := rest } ∧
      (s.ir.interval = 0 → k + 1 < s.events.posted.length → Notified (s.ir.write s.next (.driver .erdpLow, v))) := by
  have acks := ring.acks
  rw [due] at acks
  obtain ⟨rfl, consumed, rfl⟩ := acks.erdp
  have bound : (k + 1) % 256 < 256 := Nat.mod_lt _ (by decide)
  have before := ring.erdp_lt low
  rw [ringTrbs] at low
  obtain ⟨address, bit⟩ := erdp_low (base + (k + 1) % 256 * 16) (by omega) (by omega)
  let j : Interrupter := { s.ir with erdp := base + (k + 1) % 256 * 16, busy := false }
  have written : s.ir.write s.next (.driver .erdpLow, base + (k + 1) % 256 * 16 ||| 1 <<< 3) = j.notice s.next := by
    have same : s.ir.write s.next (.driver .erdpLow, base + (k + 1) % 256 * 16 ||| 1 <<< 3) =
      ({ s.ir with
          erdp := s.ir.erdp / 2 ^ 32 * 2 ^ 32 + (base + (k + 1) % 256 * 16 ||| 1 <<< 3) % 2 ^ 32 / 16 * 16
          busy := s.ir.busy && !(base + (k + 1) % 256 * 16 ||| 1 <<< 3).testBit 3 } : Interrupter).notice s.next := rfl
    rw [same, address, bit, Nat.div_eq_of_lt before, Nat.zero_mul, Nat.zero_add, Bool.not_true, Bool.and_false]
  have looks := notice_looks j s.next
  have acked : k + 1 ≤ s.events.posted.length := consumed ▸ ring.events.consumed.length_le
  have room : s.events.posted.length ≤ k + 1 + 255 := ring.room.trans (by omega)
  have nonempty : j.erdp ≠ s.next ↔ k + 1 < s.events.posted.length := by
    rw [ring.next_eq]
    exact entry_ne_iff acked room
  have raises (zero : s.ir.interval = 0) (more : k + 1 < s.events.posted.length) :
      (j.notice s.next).busy = true ∧ Notified (j.notice s.next) :=
    notice_raises zero rfl (nonempty.mpr more)
  rw [written]
  refine ⟨⟨ring.events, ring.expected, looks.controls.erdp, acked, room, ?_, fun busy => ?_,
    fun zero more => (raises (looks.controls.interval.symm.trans zero) more).1, looks.sent ring.sent⟩,
    fun zero more => (raises zero more).2⟩
  · simp only [consumed]
    refine .done fun w member => ?_
    rw [List.mem_singleton.mp member]
    exact ⟨fun same => XhciReg.noConfusion (InterrupterReg.driver.inj same), fun _ => rfl⟩
  · rcases looks.busy busy with never | more
    · cases never
    · exact nonempty.mp more

/-- The driver goes on: the event side is as before, and it writes no `ERDP`. -/
theorem goOn (ring : RingNoticed base k s) (done : s.writes = []) {x : Xhci} {writes : List (XhciReg × ℕ)}
    (phase : DriverPhase) (evtRing : x.evtRing = s.events.x.evtRing) (phys : x.evtRingPhys = s.events.x.evtRingPhys)
    (idx : x.evtIdx = s.events.x.evtIdx) (cycle : x.evtCycle = s.events.x.evtCycle)
    (mmio : x.mmio = s.events.x.mmio ++ writes) (others : ∀ w ∈ writes, Unrelated w.1) :
    RingNoticed base k (s.goOn x phase) ∧ (s.goOn x phase).writes = writes.map fun w => (.driver w.1, w.2) := by
  have fresh : (s.goOn x phase).writes = writes.map fun w => (.driver w.1, w.2) := by
    simp only [WakeSystem.goOn, WakeSystem.go, mmio, List.drop_left]
  obtain rfl := ring.acknowledged done
  refine ⟨⟨ring.events.congr evtRing phys idx cycle, ring.expected, ring.erdp, ring.acked, ring.room, ?_, ring.busy,
    ring.noticed, ring.sent⟩, fresh⟩
  rw [fresh]
  refine .done fun w member => ?_
  obtain ⟨v, inside, rfl⟩ := List.mem_map.mp member
  have other := others v inside
  exact ⟨other.driver, fun same => absurd (InterrupterReg.driver.inj same) other.2⟩

/-- A poll consumes the event that is due and has still to acknowledge it, or there is none. -/
theorem poll (ring : RingNoticed base k s) (low : base + 16 * ringTrbs ≤ 2 ^ 32) (done : s.writes = []) (p : EventPoll)
    (phase : DriverPhase) : RingNoticed base k (s.go (s.events.poll p) phase) ∧
      (k < s.events.posted.length → ∃ v, (.driver .erdpLow, v) ∈ (s.go (s.events.poll p) phase).writes) ∧
      ∀ w ∈ (s.go (s.events.poll p) phase).writes, w.1 = .driver .erdpLow ∨ w.1 = .driver .erdpHigh := by
  obtain rfl := ring.acknowledged done
  cases due : s.events.next with
  | none =>
    have rests := ring.events.poll_rests p fun e here => absurd (due.symm.trans here) (Option.some_ne_none e).symm
    have drained := List.getElem?_eq_none_iff.mp due
    rw [rests, go_rests]
    refine ⟨⟨ring.events, ring.expected, ring.erdp, ring.acked, ring.room, .done fun w member => ?_, ring.busy,
      ring.noticed, ring.sent⟩, fun more => absurd more (Nat.not_lt.mpr drained), fun w member => ?_⟩
    · cases member
    · cases member
  | some e =>
    obtain ⟨after, consumed, same⟩ := ring.events.poll_of_expected p due (ring.expected e (List.mem_of_getElem? due))
    have grown : (s.events.poll p).consumed.length = s.events.consumed.length + 1 := by
      rw [consumed, List.length_append, List.length_singleton]
    have slot : s.events.x.evtAdvance.evtIdx = (s.events.consumed.length + 1) % 256 := by
      rw [← same.evtIdx, ← grown]
      exact (after.driver.slot after.driverIdx).1.symm
    have fresh := go_advance s (s.events.poll p) phase same.mmio low ring.events.phys slot
    obtain ⟨bound, _⟩ := List.getElem?_eq_some_iff.mp due
    refine ⟨⟨after, ring.expected, ring.erdp, ring.acked, ring.room, ?_, ring.busy, ring.noticed, ring.sent⟩,
      fun _ => ⟨base + (s.events.consumed.length + 1) % 256 * 16 ||| 1 <<< 3, ?_⟩, fun w member => ?_⟩
    · have total : (s.go (s.events.poll p) phase).events.consumed.length = s.events.consumed.length + 1 := grown
      rw [fresh, total]
      exact .due _
    · rw [fresh]
      exact List.mem_cons_self
    · rw [fresh] at member
      rcases List.mem_cons.mp member with rfl | second
      · exact Or.inl rfl
      · rw [List.mem_singleton.mp second]
        exact Or.inr rfl

/-- With all events expected an iteration stops only at the end of the events. -/
theorem drained (ring : RingNoticed base k s) (done : s.writes = []) (none : s.events.x.handleEvent = none) :
    ¬k < s.events.posted.length := by
  obtain rfl := ring.acknowledged done
  intro more
  have next : s.events.next = some _ := List.getElem?_eq_getElem more
  exact ring.events.handleEvent_none_iff.mp none _ next (ring.expected _ (List.getElem_mem more))

end RingNoticed

/-- The events that are left. -/
theorem unconsumed_iff (all : k = s.events.consumed.length) :
    s.events.unconsumed = [] ↔ ¬k < s.events.posted.length := by
  rw [EventSystem.unconsumed, List.drop_eq_nil_iff, all, Nat.not_lt]

/-- An iteration leaves one event less. -/
theorem unconsumed_iterate (ring : RingNoticed base k s)
    (goes : s.events.x.handleEvent ≠ none) :
    ∃ e, s.events.unconsumed = e :: (s.events.poll .handleInterrupt).unconsumed := by
  cases due : s.events.unconsumed with
  | nil =>
    refine absurd (ring.events.handleEvent_none_iff.mpr fun e next => ?_) goes
    rw [EventInv.next_eq, due] at next
    cases next
  | cons e rest =>
    have here : e ∈ s.events.posted := by
      have member : e ∈ s.events.unconsumed := due ▸ List.mem_cons_self
      exact List.mem_of_mem_drop member
    exact ⟨e, by rw [ring.events.unconsumed_poll .handleInterrupt due (ring.expected e here)]⟩

end Ring

/-! ## What the driver writes -/

/-- A doorbell. -/
def IsDoorbell (w : InterrupterWrite) : Prop := ∃ slot, w.1 = .driver (.doorbell slot)

theorem IsDoorbell.other {w : InterrupterWrite} (bell : IsDoorbell w) : w.1 ≠ .driver .erdpLow := by
  obtain ⟨slot, same⟩ := bell
  rw [same]
  exact (unrelated_doorbell slot).driver

theorem not_doorbell_iman {v : ℕ} : ¬IsDoorbell (.driver .iman, v) := by
  rintro ⟨slot, same⟩
  exact XhciReg.noConfusion (InterrupterReg.driver.inj same)

theorem IsDoorbell.write {w : InterrupterWrite} (bell : IsDoorbell w) (i : Interrupter) (next : ℕ) :
    i.write next w = i := by
  obtain ⟨slot, same⟩ := bell
  rw [Interrupter.write, same]

/-- The first transfer rings a doorbell. -/
theorem RingNoticed.arm {base k : ℕ} {s : WakeSystem} (ring : RingNoticed base k s) (done : s.writes = [])
    (kbslot : ℕ) :
    RingNoticed base k (s.goOn (s.events.x.armKeyboard kbslot) .idle) ∧
      ∀ w ∈ (s.goOn (s.events.x.armKeyboard kbslot) .idle).writes, IsDoorbell w := by
  have mmio : (s.events.x.armKeyboard kbslot).mmio =
      s.events.x.mmio ++ [(.doorbell (kbslot % 2 ^ 8), s.events.x.hidEpNum * 2 + 1)] := rfl
  obtain ⟨armed, fresh⟩ := ring.goOn done .idle (x := s.events.x.armKeyboard kbslot) rfl rfl rfl rfl mmio
    fun w member => by
      rw [List.mem_singleton.mp member]
      exact unrelated_doorbell _
  refine ⟨armed, fun w member => ?_⟩
  rw [fresh] at member
  rw [List.mem_singleton.mp member]
  exact ⟨_, rfl⟩

/-- What `handle_interrupt` does at its end. -/
theorem handleInterruptEnd_spec (x : Xhci) (gotXfer : Bool) :
    ∃ bells, (x.handleInterruptEnd gotXfer).mmio = x.mmio ++ (bells ++ [(.iman, 2)]) ∧
      (∀ w ∈ bells, ∃ slot, w.1 = XhciReg.doorbell slot) ∧ (x.handleInterruptEnd gotXfer).evtRing = x.evtRing ∧
      (x.handleInterruptEnd gotXfer).evtRingPhys = x.evtRingPhys ∧ (x.handleInterruptEnd gotXfer).evtIdx = x.evtIdx ∧
      (x.handleInterruptEnd gotXfer).evtCycle = x.evtCycle := by
  rw [Xhci.handleInterruptEnd]
  simp only
  split
  · refine ⟨[(.doorbell (x.usbActiveSlot % 2 ^ 8), x.hidEpNum * 2 + 1)], ?_, fun w member => ?_, rfl, rfl, rfl, rfl⟩
    · exact List.append_assoc _ _ _
    · rw [List.mem_singleton.mp member]
      exact ⟨_, rfl⟩
  · exact ⟨[], rfl, fun w member => absurd member List.not_mem_nil, rfl, rfl, rfl, rfl⟩

end RaryOS.Model
