import RaryOS.Proofs.Interrupter

/-! # Which events wake the driver

The interrupter tells of an event once, and then waits for the driver to write `ERDP`. `Waking` is the invariant of a
driver that no event is lost to: what it has not acknowledged it was told of, or it will look at the ring. `Asleep` is
that of a driver which began with an event in the ring: the clearing of `IMAN` took back what it was told of.
-/

namespace RaryOS.Soundness

open RaryOS.Core RaryOS.Model

/-! ## Setting up -/

/-- How far the driver is before the interrupter may send messages. -/
inductive SetupStage : DriverPhase → List InterrupterWrite → (inte : Bool) → (interval : ℕ) → Prop
  | polling {writes : List InterrupterWrite} {inte : Bool} {interval : ℕ} :
      (∀ w ∈ writes, IsErdp w) → SetupStage .polling writes inte interval
  | enabling (cmd : ℕ) {inte : Bool} {interval : ℕ} : SetupStage .idle (enableInterrupter cmd) inte interval
  | commanded (cmd : ℕ) {interval : ℕ} : SetupStage .idle ((enableInterrupter cmd).drop 1) true interval
  | acknowledged (cmd : ℕ) {interval : ℕ} : SetupStage .idle ((enableInterrupter cmd).drop 2) true interval
  | clearing : SetupStage .idle [(.driver .iman, 1), (.driver .iman, 2)] true 0

/-- The interrupter has sent nothing and cannot. -/
structure SettingUp (base k : ℕ) (s : WakeSystem) : Prop where
  ring : RingNoticed base k s
  disabled : s.ir.enabled = false
  silent : s.ir.message = false
  stage : SetupStage s.phase s.writes s.ir.inte s.ir.interval

/-! ## Waking -/

/-- How far the driver is afterwards, and whether `IMAN` lets the interrupter send messages then. -/
inductive WakingStage : DriverPhase → List InterrupterWrite → (enabled : Bool) → Prop
  | idle {writes : List InterrupterWrite} : (∀ w ∈ writes, IsDoorbell w) → WakingStage .idle writes true
  | leaving {writes : List InterrupterWrite} :
      (∀ w ∈ writes, IsDoorbell w) → WakingStage .idle (writes ++ [(.driver .iman, 2)]) false
  | entering {gotXfer : Bool} :
      WakingStage (.handling ringTrbs gotXfer) [(.driver .usbsts, xhciUsbstsEint), (.driver .iman, 1)] true
  | closing {gotXfer : Bool} : WakingStage (.handling ringTrbs gotXfer) [(.driver .iman, 1)] true
  | looping {budget : ℕ} {gotXfer : Bool} {writes : List InterrupterWrite} :
      (∀ w ∈ writes, IsErdp w) → WakingStage (.handling budget gotXfer) writes false

/-- The driver will look at the first event, or will write `ERDP`, after which the interrupter looks at the ring. -/
def WillLook (phase : DriverPhase) (writes : List InterrupterWrite) : Prop :=
  (∃ gotXfer, phase = .handling ringTrbs gotXfer) ∨ ∃ v, (.driver .erdpLow, v) ∈ writes

/-- While an event is there that the driver has not acknowledged, the interrupter has told of it, or the driver will
look. -/
structure Waking (base k : ℕ) (s : WakeSystem) : Prop where
  ring : RingNoticed base k s
  interval : s.ir.interval = 0
  inte : s.ir.inte = true
  stage : WakingStage s.phase s.writes s.ir.enabled
  woken : k < s.events.posted.length → Notified s.ir ∨ WillLook s.phase s.writes

/-- The interrupter waits for a write to `ERDP` that never comes. -/
structure Asleep (base k : ℕ) (s : WakeSystem) : Prop where
  ring : RingNoticed base k s
  busy : s.ir.busy = true
  cleared : s.ir.pending = false
  silent : s.ir.message = false
  phase : s.phase = .idle
  writes : ∀ w ∈ s.writes, IsDoorbell w ∨ w = (.driver .iman, 2)

section Steps

variable {base k : ℕ} {s t : WakeSystem}

/-- The controller does not change the controls of the interrupter. -/
theorem Waking.look (waking : Waking base k s) {j : Interrupter} {next : ℕ} {events : EventSystem}
    (looks : Looks s.ir j next) (ring : RingNoticed base k { s with events := events, ir := j })
    (woken : k < events.posted.length → Notified j ∨ WillLook s.phase s.writes) :
    Waking base k { s with events := events, ir := j } :=
  ⟨ring, looks.controls.interval.trans waking.interval, looks.controls.inte.trans waking.inte, by
    simp only [looks.controls.enabled]
    exact waking.stage, woken⟩

theorem Waking.post (waking : Waking base k s) {e : Trb} (expected : e.Expected)
    (free : s.ir.erdp ≠ s.entry s.events.producer.advance.idx) :
    Waking base k
      { s with events := s.events.post e, ir := s.ir.notice (s.entry s.events.producer.advance.idx) } := by
  have looks := notice_looks s.ir (s.entry s.events.producer.advance.idx)
  refine waking.look looks (waking.ring.post expected free) fun _ => ?_
  cases before : s.ir.busy with
  | true => exact (waking.woken (waking.ring.busy before)).imp_left looks.notified
  | false => exact Or.inl (notice_raises waking.interval before free).2

theorem Waking.moderation (waking : Waking base k s) : Waking base k { s with ir := s.ir.raise s.next } :=
  waking.look (raise_looks _ _) (waking.ring.look (raise_looks _ _) raise_of_busy) fun more =>
    (waking.woken more).imp_left (raise_looks _ _).notified

theorem WillLook.tail {phase : DriverPhase} {w : InterrupterWrite} {rest : List InterrupterWrite}
    (look : WillLook phase (w :: rest)) (other : w.1 ≠ .driver .erdpLow) : WillLook phase rest := by
  refine look.imp_right ?_
  rintro ⟨v, member⟩
  rcases List.mem_cons.mp member with rfl | later
  · exact absurd rfl other
  · exact ⟨v, later⟩

/-- Outside of `handle_interrupt` nobody else looks. -/
theorem not_willLook_of_idle {writes : List InterrupterWrite} (others : ∀ w ∈ writes, w.1 ≠ .driver .erdpLow) :
    ¬WillLook .idle writes := by
  rintro (⟨gotXfer, same⟩ | ⟨v, member⟩)
  · cases same
  · exact others _ member rfl

/-- A write to `ERDP` leaves the other controls, and what was told. -/
theorem write_erdp_keeps (i : Interrupter) (next : ℕ) {w : InterrupterWrite} (erdp : IsErdp w) :
    (i.write next w).interval = i.interval ∧ (i.write next w).inte = i.inte ∧ (i.write next w).enabled = i.enabled ∧
      (Notified i → Notified (i.write next w)) ∧ (i.enabled = false → (i.write next w).message = i.message) := by
  obtain ⟨reg, v⟩ := w
  rcases erdp with low | high
  · obtain rfl : reg = .driver .erdpLow := low
    have looks := notice_looks { i with
      erdp := i.erdp / 2 ^ 32 * 2 ^ 32 + v % 2 ^ 32 / 16 * 16, busy := i.busy && !v.testBit 3 } next
    exact ⟨looks.controls.interval, looks.controls.inte, looks.controls.enabled, looks.notified, looks.disabled⟩
  · obtain rfl : reg = .driver .erdpHigh := high
    have looks := notice_looks { i with erdp := v * 2 ^ 32 + i.erdp % 2 ^ 32 } next
    exact ⟨looks.controls.interval, looks.controls.inte, looks.controls.enabled, looks.notified, looks.disabled⟩

/-- A write to `IMAN`. -/
theorem write_iman (i : Interrupter) (next v : ℕ) :
    (i.write next (.driver .iman, v)).interval = i.interval ∧ (i.write next (.driver .iman, v)).inte = i.inte ∧
      (i.write next (.driver .iman, v)).enabled = v.testBit 1 ∧
      (v.testBit 0 = false → Notified i → Notified (i.write next (.driver .iman, v))) := by
  obtain ⟨controls, _⟩ := send_controls
    { i with pending := i.pending && !v.testBit 0, enabled := v.testBit 1 }
  refine ⟨controls.interval, controls.inte, controls.enabled, fun keeps told => (send_notified _).mpr ?_⟩
  rw [Notified, keeps, Bool.not_false, Bool.and_true]
  exact told

/-- A register write of a driver that will wake: only a write to the low half of `ERDP` acknowledges an event. -/
theorem Waking.write (waking : Waking base k s) (low : base + 16 * ringTrbs ≤ 2 ^ 32) (aligned : base % 16 = 0)
    {w : InterrupterWrite} {rest : List InterrupterWrite} (due : s.writes = w :: rest) :
    ∃ k, Waking base k { s with ir := s.ir.write s.next w, writes := rest } := by
  obtain ⟨ring, interval, inte, stage, woken⟩ := waking
  rw [due] at stage woken
  have written (other : w.1 ≠ .driver .erdpLow) := ring.write_other low due other
  have acknowledged {v : ℕ} (here : w = (.driver .erdpLow, v)) :=
    ring.write_erdp low aligned (due.trans (congrArg (· :: rest) here))
  -- `s.phase` and `s.ir.enabled` become variables: the stage says what they are
  generalize s.phase = phase at stage woken written acknowledged ⊢
  generalize enabled : s.ir.enabled = allowed at stage
  generalize all : w :: rest = writes at stage
  cases stage with
  | idle bells =>
    subst all
    have bell := bells w List.mem_cons_self
    have same := bell.write s.ir s.next
    refine ⟨k, written bell.other, (congrArg Interrupter.interval same).trans interval,
      (congrArg Interrupter.inte same).trans inte, ?_, fun more => Or.inl ?_⟩
    · simp only [same, enabled]
      exact .idle fun v member => bells v (List.mem_cons_of_mem w member)
    · simp only [same]
      exact (woken more).resolve_right (not_willLook_of_idle fun v member => (bells v member).other)
  | @leaving bellWrites bells =>
    have silent : ∀ v ∈ w :: rest, v.1 ≠ .driver .erdpLow := by
      rw [all]
      intro v member
      rcases List.mem_append.mp member with bell | last
      · exact (bells v bell).other
      · rw [List.mem_singleton.mp last]
        exact unrelated_iman.driver
    have told (more : k < s.events.posted.length) : Notified s.ir :=
      (woken more).resolve_right (not_willLook_of_idle silent)
    cases bellWrites with
    | nil =>
      obtain ⟨rfl, rfl⟩ := List.cons.inj all
      obtain ⟨sameInterval, sameInte, sameEnabled, tells⟩ := write_iman s.ir s.next 2
      refine ⟨k, written (silent _ List.mem_cons_self), sameInterval.trans interval, sameInte.trans inte, ?_,
        fun more => Or.inl (tells rfl (told more))⟩
      simp only [sameEnabled]
      exact .idle fun v member => absurd member List.not_mem_nil
    | cons bell bellWrites =>
      obtain ⟨rfl, rfl⟩ := List.cons.inj all
      have same := (bells w List.mem_cons_self).write s.ir s.next
      refine ⟨k, written (silent _ List.mem_cons_self), (congrArg Interrupter.interval same).trans interval,
        (congrArg Interrupter.inte same).trans inte, ?_, fun more => Or.inl ?_⟩
      · simp only [same, enabled]
        exact .leaving fun v member => bells v (List.mem_cons_of_mem w member)
      · simp only [same]
        exact told more
  | entering =>
    obtain ⟨rfl, rfl⟩ := List.cons.inj all
    refine ⟨k, written unrelated_usbsts.driver, interval, inte, ?_, fun _ => Or.inr (Or.inl ⟨_, rfl⟩)⟩
    change WakingStage _ _ s.ir.enabled
    rw [enabled]
    exact .closing
  | closing =>
    obtain ⟨rfl, rfl⟩ := List.cons.inj all
    obtain ⟨sameInterval, sameInte, sameEnabled, _⟩ := write_iman s.ir s.next 1
    refine ⟨k, written unrelated_iman.driver, sameInterval.trans interval, sameInte.trans inte, ?_,
      fun _ => Or.inr (Or.inl ⟨_, rfl⟩)⟩
    simp only [sameEnabled]
    exact .looping fun v member => absurd member List.not_mem_nil
  | @looping budget gotXfer _ erdp =>
    subst all
    obtain ⟨sameInterval, sameInte, sameEnabled, tells, _⟩ :=
      write_erdp_keeps s.ir s.next (erdp w List.mem_cons_self)
    have stage : WakingStage (.handling budget gotXfer) rest (s.ir.write s.next w).enabled := by
      rw [sameEnabled, enabled]
      exact .looping fun v member => erdp v (List.mem_cons_of_mem w member)
    rcases em (w.1 = .driver .erdpLow) with here | other
    · obtain ⟨reg, v⟩ := w
      obtain rfl : reg = .driver .erdpLow := here
      obtain ⟨next, told⟩ := acknowledged rfl
      exact ⟨k + 1, next, sameInterval.trans interval, sameInte.trans inte, stage, fun more =>
        Or.inl (told interval more)⟩
    · exact ⟨k, written other, sameInterval.trans interval, sameInte.trans inte, stage, fun more =>
        (woken more).imp tells fun look => look.tail other⟩

theorem WakingStage.enabled_of_idle {allowed : Bool} (stage : WakingStage .idle [] allowed) : allowed = true := by
  generalize none : ([] : List InterrupterWrite) = writes at stage
  cases stage with
  | idle => rfl
  | leaving => exact absurd none (List.append_ne_nil_of_right_ne_nil _ (List.cons_ne_nil _ _)).symm

theorem WakingStage.disabled_of_handling {budget : ℕ} {gotXfer allowed : Bool}
    (stage : WakingStage (.handling budget gotXfer) [] allowed) : allowed = false := by
  cases stage
  rfl

/-- With no write left an idle driver has been told of what is there. -/
theorem Waking.told (waking : Waking base k s) (phase : s.phase = .idle) (done : s.writes = [])
    (more : k < s.events.posted.length) : Notified s.ir := by
  have woken := waking.woken more
  rw [phase, done] at woken
  exact woken.resolve_right (not_willLook_of_idle fun w member => absurd member List.not_mem_nil)

theorem Waking.arm (waking : Waking base k s) (kbslot : ℕ) (phase : s.phase = .idle) (done : s.writes = []) :
    Waking base k (s.goOn (s.events.x.armKeyboard kbslot) .idle) := by
  have stage := waking.stage
  rw [phase, done] at stage
  obtain ⟨ring, bells⟩ := waking.ring.arm done kbslot
  refine ⟨ring, waking.interval, waking.inte, ?_, fun more => Or.inl (waking.told phase done more)⟩
  change WakingStage .idle _ s.ir.enabled
  rw [stage.enabled_of_idle]
  exact .idle bells

/-- The processor takes the message. -/
theorem Waking.interrupt (waking : Waking base k s) (phase : s.phase = .idle) (done : s.writes = []) :
    Waking base k
      { s.goOn s.events.x.handleInterruptBegin (.handling ringTrbs false) with
        ir := { s.ir with message := false } } := by
  have stage := waking.stage
  rw [phase, done] at stage
  have mmio : s.events.x.handleInterruptBegin.mmio =
      s.events.x.mmio ++ [(.usbsts, xhciUsbstsEint), (.iman, 1)] := rfl
  obtain ⟨ring, fresh⟩ := waking.ring.goOn done (.handling ringTrbs false) (x := s.events.x.handleInterruptBegin)
    rfl rfl rfl rfl mmio fun w member => by
      rcases List.mem_cons.mp member with rfl | second
      · exact unrelated_usbsts
      · rw [List.mem_singleton.mp second]
        exact unrelated_iman
  have taken := ring.withInterrupter (j := { s.ir with message := false }) rfl Or.inl ring.noticed ring.sent
  refine ⟨taken, waking.interval, waking.inte, ?_, fun _ => Or.inr (Or.inl ⟨_, rfl⟩)⟩
  simp only [fresh]
  change WakingStage (.handling ringTrbs false) _ s.ir.enabled
  rw [stage.enabled_of_idle]
  exact .entering

theorem Waking.iterate (waking : Waking base k s) (low : base + 16 * ringTrbs ≤ 2 ^ 32) {budget : ℕ}
    {gotXfer keyboard : Bool} (phase : s.phase = .handling (budget + 1) gotXfer) (done : s.writes = []) :
    Waking base k (s.go (s.events.poll .handleInterrupt) (.handling budget (gotXfer || keyboard))) := by
  have stage := waking.stage
  rw [phase, done] at stage
  obtain ⟨ring, acknowledges, erdp⟩ := waking.ring.poll low done .handleInterrupt
    (.handling budget (gotXfer || keyboard))
  refine ⟨ring, waking.interval, waking.inte, ?_, fun more => Or.inr (Or.inr (acknowledges more))⟩
  change WakingStage (.handling budget (gotXfer || keyboard)) _ s.ir.enabled
  rw [stage.disabled_of_handling]
  exact .looping erdp

theorem Waking.leave (waking : Waking base k s) {budget : ℕ} {gotXfer : Bool}
    (phase : s.phase = .handling budget gotXfer) (done : s.writes = [])
    (ends : budget = 0 ∨ s.events.x.handleEvent = none) :
    Waking base k (s.goOn (s.events.x.handleInterruptEnd gotXfer) .idle) := by
  have stage := waking.stage
  rw [phase, done] at stage
  obtain ⟨bells, mmio, doorbells, evtRing, phys, idx, cycle⟩ := handleInterruptEnd_spec s.events.x gotXfer
  obtain ⟨ring, fresh⟩ := waking.ring.goOn done .idle evtRing phys idx cycle mmio fun w member => by
    rcases List.mem_append.mp member with bell | last
    · obtain ⟨slot, same⟩ := doorbells w bell
      rw [same]
      exact unrelated_doorbell slot
    · rw [List.mem_singleton.mp last]
      exact unrelated_iman
  refine ⟨ring, waking.interval, waking.inte, ?_, fun more => Or.inl ?_⟩
  · rw [fresh, List.map_append]
    change WakingStage .idle _ s.ir.enabled
    rw [stage.disabled_of_handling]
    refine .leaving fun w member => ?_
    obtain ⟨v, inside, rfl⟩ := List.mem_map.mp member
    obtain ⟨slot, same⟩ := doorbells v inside
    exact ⟨slot, congrArg InterrupterReg.driver same⟩
  · -- with its budget whole the loop has looked at the ring, and found nothing
    have woken := waking.woken more
    rw [phase, done] at woken
    refine woken.resolve_right ?_
    rintro (⟨other, same⟩ | ⟨v, member⟩)
    · obtain ⟨rfl, rfl⟩ := DriverPhase.handling.inj same
      refine waking.ring.drained done (ends.resolve_left ?_) more
      decide
    · exact List.not_mem_nil member

theorem Waking.step (waking : Waking base k s) (low : base + 16 * ringTrbs ≤ 2 ^ 32) (aligned : base % 16 = 0)
    {label : WakeLabel} (step : WakeStep s label t) (expected : ∀ e, label = .post e → e.Expected) :
    ∃ k, Waking base k t := by
  cases step with
  | post e free => exact ⟨k, waking.post (expected e rfl) free⟩
  | transfer intrBuf =>
    exact ⟨k, waking.ring.transfer intrBuf, waking.interval, waking.inte, waking.stage, waking.woken⟩
  | moderation => exact ⟨k, waking.moderation⟩
  | write due => exact waking.write low aligned due
  | poll p phase =>
    have stage := waking.stage
    rw [phase] at stage
    cases stage
  | enable cmd phase =>
    have stage := waking.stage
    rw [phase] at stage
    cases stage
  | arm kbslot phase done => exact ⟨k, waking.arm kbslot phase done⟩
  | interrupt phase done => exact ⟨k, waking.interrupt phase done⟩
  | iterate phase done => exact ⟨k, waking.iterate low phase done⟩
  | leave phase done ends => exact ⟨k, waking.leave phase done ends⟩

theorem Asleep.step (asleep : Asleep base k s) (low : base + 16 * ringTrbs ≤ 2 ^ 32) {label : WakeLabel}
    (step : WakeStep s label t) (expected : ∀ e, label = .post e → e.Expected) :
    Asleep base k t ∧ t.events.consumed = s.events.consumed := by
  obtain ⟨ring, busy, cleared, silent, atPhase, writes⟩ := asleep
  cases step with
  | post e free =>
    have same : s.ir.notice (s.entry s.events.producer.advance.idx) = s.ir := notice_of_busy busy
    have posted := ring.post (expected e rfl) free
    rw [same] at posted ⊢
    exact ⟨⟨posted, busy, cleared, silent, atPhase, writes⟩, rfl⟩
  | transfer intrBuf => exact ⟨⟨ring.transfer intrBuf, busy, cleared, silent, atPhase, writes⟩, rfl⟩
  | moderation =>
    have same : s.ir.raise s.next = s.ir := raise_of_busy busy
    rw [same]
    exact ⟨⟨ring, busy, cleared, silent, atPhase, writes⟩, rfl⟩
  | @write w rest due =>
    rw [due] at writes
    have left (v : InterrupterWrite) (member : v ∈ rest) := writes v (List.mem_cons_of_mem w member)
    rcases writes w List.mem_cons_self with bell | rfl
    · have written := ring.write_other low due bell.other
      rw [bell.write] at written ⊢
      exact ⟨⟨written, busy, cleared, silent, atPhase, left⟩, rfl⟩
    · have written := ring.write_other low due unrelated_iman.driver
      have same : s.ir.write s.next (.driver .iman, 2) = { s.ir with pending := false, enabled := true } := by
        have unsent : s.ir.write s.next (.driver .iman, 2) =
          ({ s.ir with pending := s.ir.pending && !(2).testBit 0, enabled := true } : Interrupter).send := rfl
        rw [unsent, cleared, Bool.false_and]
        exact send_of_clear rfl
      rw [same] at written ⊢
      exact ⟨⟨written, busy, rfl, silent, atPhase, left⟩, rfl⟩
  | poll p phase =>
    rw [atPhase] at phase
    cases phase
  | enable cmd phase =>
    rw [atPhase] at phase
    cases phase
  | arm kbslot phase done =>
    obtain ⟨armed, bells⟩ := ring.arm done kbslot
    exact ⟨⟨armed, busy, cleared, silent, rfl, fun w member => Or.inl (bells w member)⟩, rfl⟩
  | interrupt phase done message =>
    rw [silent] at message
    cases message
  | iterate phase =>
    rw [atPhase] at phase
    cases phase
  | leave phase =>
    rw [atPhase] at phase
    cases phase

/-- `IMAN` is cleared: whether the driver will wake depends on what is in the ring at this moment. -/
theorem SettingUp.clear (setting : SettingUp base k s) (interval : s.ir.interval = 0) (inte : s.ir.inte = true)
    (phase : s.phase = .idle) (low : base + 16 * ringTrbs ≤ 2 ^ 32)
    (clearing : s.writes = [(.driver .iman, 1), (.driver .iman, 2)]) :
    (¬k < s.events.posted.length → Waking base k
      { s with ir := s.ir.write s.next (.driver .iman, 1), writes := [(.driver .iman, 2)] }) ∧
      (k < s.events.posted.length → Asleep base k
        { s with ir := s.ir.write s.next (.driver .iman, 1), writes := [(.driver .iman, 2)] }) := by
  have written := setting.ring.write_other low clearing unrelated_iman.driver
  have same : s.ir.write s.next (.driver .iman, 1) = { s.ir with pending := false, enabled := false } := by
    have unsent : s.ir.write s.next (.driver .iman, 1) =
      ({ s.ir with pending := s.ir.pending && !(1).testBit 0, enabled := false } : Interrupter).send := rfl
    have clear : (s.ir.pending && !(1).testBit 0) = false := Bool.and_false _
    rw [unsent, clear]
    exact send_of_clear rfl
  rw [same] at written ⊢
  refine ⟨fun drained => ⟨written, interval, inte, ?_, fun more => absurd more drained⟩, fun more =>
    ⟨written, setting.ring.noticed interval more, rfl, setting.silent, phase, fun w member =>
      Or.inr (List.mem_singleton.mp member)⟩⟩
  have none : ([(.driver .iman, 2)] : List InterrupterWrite) = [] ++ [(.driver .iman, 2)] := rfl
  simp only [phase]
  rw [none]
  exact .leaving fun w member => absurd member List.not_mem_nil

/-- The controls while the driver sets up. -/
theorem SettingUp.look (setting : SettingUp base k s) {j : Interrupter} {next : ℕ} {events : EventSystem}
    (looks : Looks s.ir j next) (ring : RingNoticed base k { s with events := events, ir := j }) :
    SettingUp base k { s with events := events, ir := j } :=
  ⟨ring, looks.controls.enabled.trans setting.disabled, (looks.disabled setting.disabled).trans setting.silent, by
    simp only [looks.controls.interval, looks.controls.inte]
    exact setting.stage⟩

theorem SettingUp.write (setting : SettingUp base k s) (low : base + 16 * ringTrbs ≤ 2 ^ 32) (aligned : base % 16 = 0)
    {w : InterrupterWrite} {rest : List InterrupterWrite} (due : s.writes = w :: rest) :
    ∃ k, SettingUp base k { s with ir := s.ir.write s.next w, writes := rest } ∨
      Waking base k { s with ir := s.ir.write s.next w, writes := rest } ∨
      Asleep base k { s with ir := s.ir.write s.next w, writes := rest } := by
  have ring := setting.ring
  have written (other : w.1 ≠ .driver .erdpLow) := ring.write_other low due other
  have acknowledged {v : ℕ} (here : w = (.driver .erdpLow, v)) :=
    ring.write_erdp low aligned (due.trans (congrArg (· :: rest) here))
  have stage := setting.stage
  rw [due] at stage
  generalize atPhase : s.phase = phase at stage written acknowledged ⊢
  generalize sends : s.ir.inte = inte at stage
  generalize moderated : s.ir.interval = interval at stage
  generalize all : w :: rest = writes at stage
  cases stage with
  | polling erdp =>
    subst all
    obtain ⟨_, _, sameEnabled, _, quiet⟩ := write_erdp_keeps s.ir s.next (erdp w List.mem_cons_self)
    have stage : SetupStage .polling rest (s.ir.write s.next w).inte (s.ir.write s.next w).interval :=
      .polling fun v member => erdp v (List.mem_cons_of_mem w member)
    have disabled := sameEnabled.trans setting.disabled
    have silent := (quiet setting.disabled).trans setting.silent
    rcases em (w.1 = .driver .erdpLow) with here | other
    · obtain ⟨reg, v⟩ := w
      obtain rfl : reg = .driver .erdpLow := here
      exact ⟨k + 1, Or.inl ⟨(acknowledged rfl).1, disabled, silent, stage⟩⟩
    · exact ⟨k, Or.inl ⟨written other, disabled, silent, stage⟩⟩
  | enabling cmd =>
    obtain ⟨rfl, rfl⟩ := List.cons.inj all
    have inte : (cmd ||| xhciUsbcmdRs ||| xhciUsbcmdInte).testBit 2 = true := by
      rw [Nat.testBit_or]
      exact Bool.or_true _
    have same : s.ir.write s.next (.usbcmd, cmd ||| xhciUsbcmdRs ||| xhciUsbcmdInte) = { s.ir with inte := true } := by
      have unsent : s.ir.write s.next (.usbcmd, cmd ||| xhciUsbcmdRs ||| xhciUsbcmdInte) =
        ({ s.ir with inte := (cmd ||| xhciUsbcmdRs ||| xhciUsbcmdInte).testBit 2 } : Interrupter).send := rfl
      rw [unsent, inte]
      exact send_of_disabled setting.disabled
    have next := written fun here => InterrupterReg.noConfusion here
    rw [same] at next ⊢
    exact ⟨k, Or.inl ⟨next, setting.disabled, setting.silent, .commanded cmd⟩⟩
  | commanded cmd =>
    obtain ⟨rfl, rfl⟩ := List.cons.inj all
    have next := written unrelated_usbsts.driver
    refine ⟨k, Or.inl ⟨next, setting.disabled, setting.silent, ?_⟩⟩
    change SetupStage .idle _ s.ir.inte s.ir.interval
    rw [sends]
    exact .acknowledged cmd
  | acknowledged cmd =>
    obtain ⟨rfl, rfl⟩ := List.cons.inj all
    have next := written fun here => InterrupterReg.noConfusion here
    have looks := notice_looks { s.ir with interval := 0 } s.next
    refine ⟨k, Or.inl ⟨next, looks.controls.enabled.trans setting.disabled,
      (looks.disabled setting.disabled).trans setting.silent, ?_⟩⟩
    have inte : (s.ir.write s.next (.imod, 0)).inte = true := looks.controls.inte.trans sends
    have interval : (s.ir.write s.next (.imod, 0)).interval = 0 := looks.controls.interval
    simp only [inte, interval]
    exact .clearing
  | clearing =>
    obtain ⟨rfl, rfl⟩ := List.cons.inj all
    obtain ⟨drained, left⟩ := setting.clear moderated sends atPhase low due
    rw [atPhase] at drained left
    rcases em (k < s.events.posted.length) with more | none
    · exact ⟨k, Or.inr (Or.inr (left more))⟩
    · exact ⟨k, Or.inr (Or.inl (drained none))⟩

theorem SettingUp.step (setting : SettingUp base k s) (low : base + 16 * ringTrbs ≤ 2 ^ 32) (aligned : base % 16 = 0)
    {label : WakeLabel} (step : WakeStep s label t) (expected : ∀ e, label = .post e → e.Expected) :
    ∃ k, SettingUp base k t ∨ Waking base k t ∨ Asleep base k t := by
  have idle (phase : s.phase = .idle) : s.writes ≠ [] := by
    have stage := setting.stage
    rw [phase] at stage
    intro done
    rw [done] at stage
    cases stage
  have outside (budget : ℕ) (gotXfer : Bool) : s.phase ≠ .handling budget gotXfer := by
    have stage := setting.stage
    intro phase
    rw [phase] at stage
    cases stage
  cases step with
  | post e free =>
    exact ⟨k, Or.inl (setting.look (notice_looks _ _) (setting.ring.post (expected e rfl) free))⟩
  | transfer intrBuf =>
    exact ⟨k, Or.inl ⟨setting.ring.transfer intrBuf, setting.disabled, setting.silent, setting.stage⟩⟩
  | moderation =>
    exact ⟨k, Or.inl (setting.look (raise_looks _ _) (setting.ring.look (raise_looks _ _) raise_of_busy))⟩
  | write due => exact setting.write low aligned due
  | poll p phase done =>
    obtain ⟨ring, _, erdp⟩ := setting.ring.poll low done p .polling
    exact ⟨k, Or.inl ⟨ring, setting.disabled, setting.silent, .polling erdp⟩⟩
  | enable cmd phase done =>
    have acks := setting.ring.acks
    rw [done] at acks
    have plain : Acks base (enableInterrupter cmd) k s.events.consumed.length := by
      rw [← acks.eq_of_nil]
      refine .done fun w member => ?_
      simp only [enableInterrupter, List.mem_cons, List.not_mem_nil, or_false] at member
      rcases member with rfl | rfl | rfl | rfl | rfl <;> simp
    obtain ⟨events, expected, erdp, acked, room, _, busy, noticed, sent⟩ := setting.ring
    exact ⟨k, Or.inl ⟨⟨events, expected, erdp, acked, room, plain, busy, noticed, sent⟩, setting.disabled,
      setting.silent, .enabling cmd⟩⟩
  | arm kbslot phase done => exact absurd done (idle phase)
  | interrupt phase done => exact absurd done (idle phase)
  | iterate phase => exact absurd phase (outside _ _)
  | leave phase => exact absurd phase (outside _ _)

/-- After `setup_evt_ring`. -/
theorem settingUp_start (x : Xhci) (low : base + 16 * ringTrbs ≤ 2 ^ 32) (aligned : base % 16 = 0) :
    SettingUp base 0 (.start x base) := by
  rw [ringTrbs] at low
  have first : 0 / 2 ^ 32 * 2 ^ 32 + base % 2 ^ 32 % 2 ^ 32 / 16 * 16 = base := by omega
  have second : base / 2 ^ 32 * 2 ^ 32 + base % 2 ^ 32 = base := Nat.div_add_mod' base (2 ^ 32)
  have ir : (WakeSystem.start x base).ir = { erdp := base } := by
    have half : ({} : Interrupter).write base (.driver .erdpLow, base % 2 ^ 32) =
      ({ erdp := 0 / 2 ^ 32 * 2 ^ 32 + base % 2 ^ 32 % 2 ^ 32 / 16 * 16 } : Interrupter).notice base := rfl
    have whole : ({ erdp := base } : Interrupter).write base (.driver .erdpHigh, base / 2 ^ 32) =
      ({ erdp := base / 2 ^ 32 * 2 ^ 32 + base % 2 ^ 32 } : Interrupter).notice base := rfl
    have moderated : (4000 : ℕ) ≠ 0 := by decide
    rw [WakeSystem.start, half, first, notice_of_moderated moderated, whole, second, notice_of_moderated moderated]
  refine ⟨⟨.setup x base, fun e member => absurd member List.not_mem_nil, ?_, Nat.le_refl 0, Nat.zero_le _,
    .done fun w member => absurd member List.not_mem_nil, ?_, ?_, ?_⟩, ?_, ?_, .polling fun w member =>
      absurd member List.not_mem_nil⟩
  all_goals rw [ir]
  · rfl
  · intro busy
    cases busy
  · intro zero
    cases zero
  · intro pending
    cases pending

end Steps

/-! ## Runs -/

section Runs

variable {base : ℕ} (low : base + 16 * ringTrbs ≤ 2 ^ 32) (aligned : base % 16 = 0) {labels : List WakeLabel}
  {s t : WakeSystem} (run : Path WakeStep s labels t) (expected : ∀ e, .post e ∈ labels → e.Expected)

include low aligned run expected

theorem waking_run (start : ∃ k, Waking base k s) : ∃ k, Waking base k t := by
  have allowed : ∀ label ∈ labels, ∀ e, label = .post e → e.Expected := fun label member e same =>
    expected e (same ▸ member)
  refine run.invariant_of_labels (fun s => ∃ k, Waking base k s) allowed start fun s label t allowed inv step => ?_
  obtain ⟨k, waking⟩ := inv
  exact waking.step low aligned step allowed

theorem setup_run (start : ∃ k, SettingUp base k s) :
    ∃ k, SettingUp base k t ∨ Waking base k t ∨ Asleep base k t := by
  have allowed : ∀ label ∈ labels, ∀ e, label = .post e → e.Expected := fun label member e same =>
    expected e (same ▸ member)
  refine run.invariant_of_labels (fun s => ∃ k, SettingUp base k s ∨ Waking base k s ∨ Asleep base k s) allowed
    (start.imp fun k setting => Or.inl setting) fun s label t allowed inv step => ?_
  obtain ⟨k, setting | waking | asleep⟩ := inv
  · exact setting.step low aligned step allowed
  · exact (waking.step low aligned step allowed).imp fun k waking => Or.inr (Or.inl waking)
  · exact ⟨k, Or.inr (Or.inr (asleep.step low step allowed).1)⟩

omit aligned in
theorem asleep_run {k : ℕ} (start : Asleep base k s) :
    Asleep base k t ∧ t.events.consumed = s.events.consumed := by
  have allowed : ∀ label ∈ labels, ∀ e, label = .post e → e.Expected := fun label member e same =>
    expected e (same ▸ member)
  refine run.invariant_of_labels (fun t => Asleep base k t ∧ t.events.consumed = s.events.consumed) allowed ⟨start, rfl⟩
    fun mid label t allowed inv step => ?_
  obtain ⟨next, same⟩ := inv.1.step low step allowed
  exact ⟨next, same.trans inv.2⟩

end Runs

/-! ## What the driver does by itself -/

/-- Left alone the driver comes to rest with every event consumed. -/
def Drains (s : WakeSystem) : Prop :=
  ∃ labels t, Path WakeStep s labels t ∧ (∀ label ∈ labels, label.isDriver = true) ∧ t.phase = .idle ∧
    t.writes = [] ∧ t.events.posted = s.events.posted ∧ t.events.unconsumed = []

section Driver

variable {base k : ℕ} {s t : WakeSystem}

theorem Drains.step {label : WakeLabel} (drains : Drains t) (step : WakeStep s label t) (own : label.isDriver = true)
    (posted : t.events.posted = s.events.posted) : Drains s := by
  obtain ⟨labels, u, run, driver, phase, writes, same, drained⟩ := drains
  refine ⟨label :: labels, u, .cons step run, fun l member => ?_, phase, writes, same.trans posted, drained⟩
  rcases List.mem_cons.mp member with rfl | later
  · exact own
  · exact driver l later

/-- The driver makes the register writes that are left. -/
theorem Waking.drains_of_written (low : base + 16 * ringTrbs ≤ 2 ^ 32) (aligned : base % 16 = 0)
    (waking : Waking base k s)
    (written : ∀ k t, Waking base k t → t.writes = [] → t.phase = s.phase → t.events = s.events → Drains t) :
    Drains s := by
  generalize left : s.writes = writes
  induction writes generalizing k s with
  | nil => exact written k s waking left rfl rfl
  | cons w rest ih =>
    obtain ⟨k, next⟩ := waking.write low aligned left
    exact (ih next written rfl).step (.write left) rfl rfl

/-- A driver that rests while an event waits has a message on its way. -/
def WakesDriver (s : WakeSystem) : Prop :=
  s.phase = .idle → s.writes = [] → s.events.unconsumed ≠ [] → s.ir.message = true

theorem Waking.wakes (waking : Waking base k s) : WakesDriver s := by
  intro phase done waits
  have more := not_not.mp ((unconsumed_iff (waking.ring.acknowledged done)).not.mp waits)
  have stage := waking.stage
  rw [phase, done] at stage
  refine (waking.told phase done more).resolve_left fun pending => ?_
  exact waking.ring.sent pending stage.enabled_of_idle waking.inte

/-- How far the driver is from rest: a whole budget is used if an event waits, and a loop that has begun ends. -/
def restOf (waiting : ℕ) : DriverPhase → ℕ
  | .polling => 0
  | .idle => if waiting = 0 then 0 else 1
  | .handling budget _ => if budget = ringTrbs then (if waiting = 0 then 1 else 0) else 2

def remaining (s : WakeSystem) : ℕ :=
  3 * s.events.unconsumed.length + restOf s.events.unconsumed.length s.phase

theorem restOf_handling_le (waiting budget : ℕ) (gotXfer : Bool) : restOf waiting (.handling budget gotXfer) ≤ 2 := by
  rw [restOf]
  split
  · split <;> decide
  · exact Nat.le_refl 2

theorem Waking.drains_of_rest (low : base + 16 * ringTrbs ≤ 2 ^ 32) (aligned : base % 16 = 0) (n : ℕ) {k : ℕ}
    {s : WakeSystem} (waking : Waking base k s) (done : s.writes = []) (steps : remaining s = n) : Drains s := by
  induction n using Nat.strong_induction_on generalizing k s with
  | _ n ih =>
    have later {k : ℕ} {t : WakeSystem} (waking : Waking base k t) (fewer : remaining t < n) : Drains t :=
      waking.drains_of_written low aligned fun k u waking done phase events =>
        ih (remaining u) (by rw [remaining, phase, events]; exact fewer) waking done rfl
    cases phase : s.phase with
    | polling =>
      have stage := waking.stage
      rw [phase] at stage
      cases stage
    | idle =>
      rcases em (s.events.unconsumed = []) with drained | waits
      · exact ⟨[], s, .nil s, fun l member => absurd member List.not_mem_nil, phase, done, rfl, drained⟩
      · refine (later (waking.interrupt phase done) ?_).step
          (.interrupt phase done (waking.wakes phase done waits)) rfl rfl
        have positive : s.events.unconsumed.length ≠ 0 := fun zero => waits (List.length_eq_zero_iff.mp zero)
        rw [← steps, remaining, remaining, phase]
        change 3 * s.events.unconsumed.length + restOf s.events.unconsumed.length (.handling ringTrbs false) < _
        rw [restOf, restOf, if_pos rfl, if_neg positive, if_neg positive]
        omega
    | handling budget gotXfer =>
      cases event : s.events.x.handleEvent with
      | none =>
        -- the loop ends because the ring is empty
        have drained := (unconsumed_iff (waking.ring.acknowledged done)).mpr (waking.ring.drained done event)
        refine (later (waking.leave phase done (Or.inr event)) ?_).step (.leave phase done (Or.inr event)) rfl rfl
        rw [← steps, remaining, remaining, phase]
        change 3 * s.events.unconsumed.length + restOf s.events.unconsumed.length .idle < _
        rw [drained, List.length_nil, restOf, restOf, if_pos rfl, if_pos rfl]
        split <;> decide
      | some outcome =>
        obtain ⟨y, keyboard⟩ := outcome
        obtain ⟨e, due⟩ := unconsumed_iterate waking.ring (event ▸ Option.some_ne_none _)
        cases budget with
        | zero =>
          refine (later (waking.leave phase done (Or.inl rfl)) ?_).step (.leave phase done (Or.inl rfl)) rfl rfl
          rw [← steps, remaining, remaining, phase]
          change 3 * s.events.unconsumed.length + restOf s.events.unconsumed.length .idle < _
          rw [restOf, restOf, if_neg (by decide : (0 : ℕ) ≠ ringTrbs)]
          split <;> omega
        | succ budget =>
          refine (later (waking.iterate low phase done) ?_).step (.iterate phase done event) rfl rfl
          have rest := restOf_handling_le (s.events.poll .handleInterrupt).unconsumed.length budget
            (gotXfer || keyboard)
          rw [← steps, remaining, remaining, phase, due, List.length_cons]
          change 3 * (s.events.poll .handleInterrupt).unconsumed.length +
            restOf (s.events.poll .handleInterrupt).unconsumed.length (.handling budget (gotXfer || keyboard)) < _
          omega

theorem Waking.drains (low : base + 16 * ringTrbs ≤ 2 ^ 32) (aligned : base % 16 = 0) (waking : Waking base k s) :
    Drains s :=
  waking.drains_of_written low aligned fun _ _ waking done _ _ => waking.drains_of_rest low aligned _ done rfl

/-- `enable_interrupter` before it clears `IMAN`. -/
theorem SettingUp.clearing (setting : SettingUp base k s)
    (clearing : s.writes = [(.driver .iman, 1), (.driver .iman, 2)]) :
    s.phase = .idle ∧ s.ir.inte = true ∧ s.ir.interval = 0 := by
  have stage := setting.stage
  rw [clearing] at stage
  generalize s.phase = phase at stage ⊢
  generalize s.ir.inte = inte at stage ⊢
  generalize s.ir.interval = interval at stage ⊢
  generalize all : ([(.driver .iman, 1), (.driver .iman, 2)] : List InterrupterWrite) = writes at stage
  cases stage with
  | polling erdp =>
    subst all
    exact absurd (erdp _ List.mem_cons_self) unrelated_iman.not_erdp
  | enabling cmd => cases all
  | commanded cmd => cases all
  | acknowledged cmd => cases all
  | clearing => exact ⟨rfl, rfl, rfl⟩

theorem Waking.not_clearing (waking : Waking base k s) :
    s.writes ≠ [(.driver .iman, 1), (.driver .iman, 2)] := by
  intro clearing
  have stage := waking.stage
  rw [clearing] at stage
  generalize s.phase = phase at stage
  generalize s.ir.enabled = allowed at stage
  generalize all : ([(.driver .iman, 1), (.driver .iman, 2)] : List InterrupterWrite) = writes at stage
  cases stage with
  | idle bells =>
    subst all
    exact not_doorbell_iman (bells _ List.mem_cons_self)
  | @leaving bellWrites bells =>
    cases bellWrites with
    | nil => cases all
    | cons bell rest =>
      obtain ⟨rfl, _⟩ := List.cons.inj all
      exact not_doorbell_iman (bells _ List.mem_cons_self)
  | entering => cases all
  | closing => cases all
  | looping erdp =>
    subst all
    exact absurd (erdp _ List.mem_cons_self) unrelated_iman.not_erdp

theorem Asleep.not_clearing (asleep : Asleep base k s) :
    s.writes ≠ [(.driver .iman, 1), (.driver .iman, 2)] := by
  intro clearing
  have first := asleep.writes
  rw [clearing] at first
  rcases first _ List.mem_cons_self with bell | same
  · exact not_doorbell_iman bell
  · cases same

end Driver

/-- For a ring below 4 GiB and all orders of events, polls, register writes and interrupts: if everything posted has
been consumed when `enable_interrupter` clears `IMAN`, then from there on a driver that rests while an event waits has a
message on its way, and left alone it consumes every event. Otherwise it never gets a message, and consumes nothing
more. -/
theorem events_wake_driver (x : Xhci) {base : ℕ} (aligned : base % 16 = 0) (low : base + 16 * ringTrbs ≤ 2 ^ 32)
    {before after : List WakeLabel} {m c s : WakeSystem} (setup : Path WakeStep (.start x base) before m)
    (clearing : m.writes = [(.driver .iman, 1), (.driver .iman, 2)]) (cleared : WakeStep m .write c)
    (run : Path WakeStep c after s) (expected : ∀ e, .post e ∈ before ++ after → e.Expected) :
    (m.events.unconsumed = [] → WakesDriver s ∧ Drains s) ∧
      (m.events.unconsumed ≠ [] → s.ir.message = false ∧ s.events.consumed = m.events.consumed) := by
  have first (e : Trb) (member : .post e ∈ before) : e.Expected := expected e (List.mem_append_left _ member)
  have second (e : Trb) (member : .post e ∈ after) : e.Expected := expected e (List.mem_append_right _ member)
  obtain ⟨k, inv⟩ := setup_run low aligned setup first ⟨0, settingUp_start x low aligned⟩
  have setting := inv.resolve_right fun later =>
    later.elim (fun waking => waking.not_clearing clearing) fun asleep => asleep.not_clearing clearing
  obtain ⟨phase, inte, interval⟩ := setting.clearing clearing
  obtain ⟨drained, left⟩ := setting.clear interval inte phase low clearing
  have acks := setting.ring.acks
  rw [clearing] at acks
  have all := ((acks.other unrelated_iman.driver).2.other unrelated_iman.driver).2.eq_of_nil
  cases cleared with
  | @write w rest due =>
    rw [clearing] at due
    obtain ⟨rfl, rfl⟩ := List.cons.inj due
    refine ⟨fun none => ?_, fun some => ?_⟩
    · have start := drained ((unconsumed_iff all).mp none)
      obtain ⟨_, waking⟩ := waking_run low aligned run second ⟨k, start⟩
      exact ⟨waking.wakes, waking.drains low aligned⟩
    · have start := left (not_not.mp ((unconsumed_iff all).not.mp some))
      obtain ⟨asleep, consumed⟩ := asleep_run low run second start
      exact ⟨asleep.silent, consumed⟩

/-- The driver makes its next register write. -/
def writeNext (s : WakeSystem) : WakeSystem :=
  match s.writes with
  | [] => s
  | w :: rest => { s with ir := s.ir.write s.next w, writes := rest }

/-- `enable_interrupter` begins, with the ring at `0x180000`. -/
def sampleEnabling : WakeSystem :=
  { WakeSystem.start { evtRingPhys := 0 } 0x180000 with phase := .idle, writes := enableInterrupter 0 }

def sampleClearing : WakeSystem := writeNext (writeNext (writeNext sampleEnabling))

/-- The same, but a port change is posted before `IMAN` is cleared. -/
def sampleLeftOver : WakeSystem :=
  { sampleClearing with
    events := sampleClearing.events.post ⟨0, 0, 34 <<< 10⟩
    ir := sampleClearing.ir.notice (sampleClearing.entry sampleClearing.events.producer.advance.idx) }

/-- A port change that is posted after `enable_interrupter` wakes the driver, which consumes it. Behind one that was
left over, a command completion does not. -/
theorem events_wake_driver_sample :
    (∃ s, Path WakeStep (writeNext sampleClearing) [.write, .post ⟨0, 0, 34 <<< 10⟩] s ∧
        s.events.unconsumed = [⟨0, 0, 34 <<< 10 + 1⟩] ∧ s.ir.message = true ∧ Drains s) ∧
      ∃ s, Path WakeStep (writeNext sampleLeftOver) [.write, .post ⟨0, 0, 33 <<< 10⟩] s ∧
        s.events.unconsumed = [⟨0, 0, 34 <<< 10 + 1⟩, ⟨0, 0, 33 <<< 10 + 1⟩] ∧ s.ir.message = false ∧
        s.events.consumed = [] := by
  have setup : Path WakeStep (.start { evtRingPhys := 0 } 0x180000) [.enable 0, .write, .write, .write]
      sampleClearing :=
    .cons (.enable 0 rfl rfl) (.cons (.write rfl) (.cons (.write rfl) (.cons (.write rfl) (.nil _))))
  have run : Path WakeStep (writeNext sampleClearing) [.write, .post ⟨0, 0, 34 <<< 10⟩] _ :=
    .cons (.write rfl) (.cons (.post _ (by decide)) (.nil _))
  have setupLeft : Path WakeStep (.start { evtRingPhys := 0 } 0x180000)
      ([.enable 0, .write, .write, .write] ++ [.post ⟨0, 0, 34 <<< 10⟩]) sampleLeftOver :=
    setup.snoc (.post _ (by decide))
  have runLeft : Path WakeStep (writeNext sampleLeftOver) [.write, .post ⟨0, 0, 33 <<< 10⟩] _ :=
    .cons (.write rfl) (.cons (.post _ (by decide)) (.nil _))
  have expected (e : Trb) (member : e = ⟨0, 0, 34 <<< 10⟩ ∨ e = ⟨0, 0, 33 <<< 10⟩) : e.Expected := by
    rcases member with rfl | rfl <;> decide
  obtain ⟨wakes, drains⟩ := (events_wake_driver { evtRingPhys := 0 } (by decide) (by decide) setup rfl (.write rfl) run
    fun e member => expected e (by
      simpa only [List.cons_append, List.nil_append, List.mem_cons, List.not_mem_nil, or_false, reduceCtorEq, false_or,
        WakeLabel.post.injEq] using Or.inl member)).1 rfl
  obtain ⟨silent, consumed⟩ := (events_wake_driver { evtRingPhys := 0 } (by decide) (by decide) setupLeft rfl
    (.write rfl) runLeft fun e member => expected e (by
      simpa only [List.cons_append, List.nil_append, List.mem_cons, List.not_mem_nil, or_false, reduceCtorEq, false_or,
        WakeLabel.post.injEq] using member)).2 (List.cons_ne_nil _ _)
  exact ⟨⟨_, run, rfl, wakes rfl rfl (List.cons_ne_nil _ _), drains⟩, _, runLeft, rfl, silent, consumed⟩

end RaryOS.Soundness
