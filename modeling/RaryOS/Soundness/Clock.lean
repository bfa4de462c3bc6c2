import RaryOS.Model.Pit
import RaryOS.Soundness.InterruptLines
import RaryOS.Soundness.KernelInput

/-! # The kernel's clock

The timer's output is line 0 of the interrupt controllers, the first in their queue, and `pit_handler` counts. So
`pit_ticks` is the number of the timer's periods, but for those in which the processor takes no interrupt while the
output is high.
-/

namespace RaryOS.Soundness

open RaryOS.Core RaryOS.Model

/-- The timer's line. -/
def pitLine : IrqLine := .first timerInput

/-- The timer, the controllers and the kernel. -/
structure ClockSystem where
  pit : Pit
  lines : LineSystem KernelHandler KernelWorld

inductive ClockEvent where
  | clock
  | line (e : LineEvent)
deriving DecidableEq

/-- The line of the timer follows its output. -/
def ClockSystem.clock (s : ClockSystem) : ClockSystem :=
  match s.pit.clock with
  | (pit, .steady) => { s with pit }
  | (pit, .rises) => ⟨pit, { s.lines with pics := s.lines.pics.request pitLine }⟩
  | (pit, .falls) => ⟨pit, { s.lines with pics := s.lines.pics.withdraw pitLine }⟩

/-- A clock of the timer, or a step of the other devices, the controllers and the processor. -/
inductive ClockStep : ClockSystem → ClockEvent → ClockSystem → Prop
  | clock (s : ClockSystem) : ClockStep s .clock s.clock
  | line {s : ClockSystem} {e : LineEvent} {lines : LineSystem KernelHandler KernelWorld} :
      e ≠ .request pitLine → e ≠ .withdraw pitLine → LineStep KernelHandler.run s.lines e lines →
      ClockStep s (.line e) { s with lines }

/-- The queue of the controllers, the clocks, whether an interrupt was taken since the output rose, and how often the
output fell while its line was waiting. -/
structure ClockQueue where
  queue : LineQueue := {}
  clocks : ℕ := 0
  answered : Bool := true
  lost : ℕ := 0

namespace ClockQueue

/-- The clocks at which the output rises and falls. -/
def Rises (n : ℕ) : Prop := n % pitDivisor = 0
def Falls (n : ℕ) : Prop := n % pitDivisor = (pitDivisor + 1) / 2

instance (n : ℕ) : Decidable (Rises n) := inferInstanceAs (Decidable (_ = _))
instance (n : ℕ) : Decidable (Falls n) := inferInstanceAs (Decidable (_ = _))

def clock (c : ClockQueue) : ClockQueue :=
  let n := c.clocks + 1
  if Rises n then { c with queue := c.queue.apply (.request pitLine), clocks := n, answered := false }
  else if Falls n then
    { c with
      queue := c.queue.apply (.withdraw pitLine)
      clocks := n
      lost := c.lost + if pitLine ∈ c.queue.waiting then 1 else 0 }
  else { c with clocks := n }

def apply (c : ClockQueue) : ClockEvent → ClockQueue
  | .clock => c.clock
  | .line (.interrupt l) => { c with queue := c.queue.apply (.interrupt l), answered := true }
  | .line e => { c with queue := c.queue.apply e }

end ClockQueue

/-- After `pic_remap`, `init_pit` and the mask that `kernel_main` writes. -/
def kernelClock : ClockQueue := { queue := { firstMask := 0xFC } }

/-- In every period the processor takes an interrupt, of whatever line, before the output falls. -/
def Prompt (es : List ClockEvent) : Prop :=
  ∀ done, done ++ [.clock] <+: es → ClockQueue.Falls (done.count .clock + 1) →
    (done.foldl ClockQueue.apply kernelClock).answered = true

/-- The timer as `init_pit` programs it. -/
def pitAfter (n : ℕ) : Pit := { control := 0x36, count := some pitDivisor, elapsed := n }

/-- The interrupt of the timer that waits, and the one that is handled. -/
def pitWaits (q : LineQueue) : ℕ := if pitLine ∈ q.waiting then 1 else 0
def pitRuns (s : LineSystem KernelHandler KernelWorld) : ℕ := if s.handling = some 32 then 1 else 0

theorem initPit_writes (p : Pit) : p.writes initPit = pitAfter 0 := by
  have words : initPit = [.outb 0x43 0x36, .outb 0x40 0x9B, .outb 0x40 0x2E] := by decide
  have both : (0x36 : BitVec 8) >>> 4 &&& 3 = 3 := by decide
  have control : p.write (.outb 0x43 0x36) = { control := 0x36 } := by
    rw [Pit.write, if_pos rfl, if_pos (by decide)]
  have low : ({ control := 0x36 } : Pit).write (.outb 0x40 0x9B) = { control := 0x36, low := some 0x9B } := by
    rw [Pit.write, if_neg (by decide), if_pos rfl, if_pos both]
  have high : ({ control := 0x36, low := some 0x9B } : Pit).write (.outb 0x40 0x2E) = pitAfter 0 := by
    have count : Pit.countOf 0x9B 0x2E = pitDivisor := by decide
    rw [Pit.write, if_neg (by decide), if_pos rfl, if_pos both]
    dsimp only
    rw [count]
    rfl
  rw [words, Pit.writes, List.foldl_cons, List.foldl_cons, List.foldl_cons, List.foldl_nil, control, low, high]

/-- A clock. -/
theorem pitAfter_clock (n : ℕ) :
    (pitAfter n).clock =
      (pitAfter (n + 1),
        if ClockQueue.Rises (n + 1) then .rises else if ClockQueue.Falls (n + 1) then .falls else .steady) := by
  have square : (pitAfter n).squareWave ≠ false := by
    have mode : (0x36 : BitVec 8) >>> 1 &&& 3 = 3 := by decide
    exact ne_false_of_eq_true (decide_eq_true mode)
  exact congrArg (Prod.mk (pitAfter (n + 1))) (if_neg square)

section Steps

variable {q : LineQueue} {s s' : LineSystem KernelHandler KernelWorld} {e : LineEvent}

/-- What the kernel's handlers do to the ticks. -/
theorem dispatch_ticks (handlers : ∀ v, (s.irq.table v).handler = kernelHandlerOf v) (v : BitVec 8) :
    (s.dispatch KernelHandler.run v).irq.world.pitTicks = s.irq.world.pitTicks + (if v = 32 then 1 else 0) ∧
      ∀ v', ((s.dispatch KernelHandler.run v).irq.table v').handler = kernelHandlerOf v' := by
  have vector : (v.setWidth 64).setWidth 8 = v := by
    rw [BitVec.setWidth_setWidth_of_le _ (by decide), BitVec.setWidth_eq]
  have done := InterruptSystem.interrupt_effect (s := ⟨s.irq, {}, none, []⟩) handlers s.irq.world (v.setWidth 64)
  rw [vector] at done
  exact ⟨done.1, InterruptSystem.interrupt_handlers (s := ⟨s.irq, {}, none, []⟩) handlers s.irq.world (v.setWidth 64)⟩

theorem lineVector_pit {l : IrqLine} : lineVector l = 32 ↔ l = pitLine :=
  lineVector_injective.eq_iff' rfl

theorem pitWaits_congr {q' : LineQueue} (same : pitLine ∈ q'.waiting ↔ pitLine ∈ q.waiting) :
    pitWaits q' = pitWaits q := if_congr same rfl rfl

theorem pitRuns_eq (handling : s.handling ≠ some 32) : pitRuns s = 0 := if_neg handling

/-- A step of the controllers moves the timer's interrupt from waiting to handling to counted. -/
theorem LineInv.ticks (inv : LineInv q s) (handlers : ∀ v, (s.irq.table v).handler = kernelHandlerOf v)
    (step : LineStep KernelHandler.run s e s') (asks : e ≠ .request pitLine) (withdraws : e ≠ .withdraw pitLine) :
    (∀ v, (s'.irq.table v).handler = kernelHandlerOf v) ∧
      ∃ n, s'.irq.world.pitTicks = s.irq.world.pitTicks + BitVec.ofNat 64 n ∧
        n + pitWaits (q.apply e) + pitRuns s' = pitWaits q + pitRuns s := by
  have next := (inv.step kernelHandlers_quiet step).2
  have still : s.irq.world.pitTicks = s.irq.world.pitTicks + BitVec.ofNat 64 0 := (BitVec.add_zero _).symm
  cases step with
  | @request l device =>
    have same : pitWaits (q.apply (.request l)) = pitWaits q := pitWaits_congr (by
      rw [LineQueue.apply, Finset.mem_insert, or_iff_right fun same => asks (congrArg _ same.symm)])
    exact ⟨handlers, 0, still, by rw [same, Nat.zero_add]; rfl⟩
  | withdraw l =>
    have same : pitWaits (q.apply (.withdraw l)) = pitWaits q := pitWaits_congr (by
      rw [LineQueue.apply, Finset.mem_erase, and_iff_right fun same => withdraws (congrArg _ same.symm)])
    exact ⟨handlers, 0, still, by rw [same, Nat.zero_add]; rfl⟩
  | mask ofSecond value =>
    have same : pitWaits (q.apply (.mask ofSecond value)) = pitWaits q := by cases ofSecond <;> rfl
    exact ⟨handlers, 0, still, by rw [same, Nat.zero_add]; rfl⟩
  | @interrupt l pics idle taken =>
    have before : pitRuns s = 0 := pitRuns_eq (by rw [idle]; exact fun same => by cases same)
    refine ⟨handlers, 0, still, ?_⟩
    rw [before, Nat.zero_add, Nat.add_zero]
    rcases em (l = pitLine) with rfl | other
    · have waits : pitLine ∈ q.waiting := by
        have found := List.find?_some (next pitLine rfl)
        exact of_decide_eq_true (Bool.and_eq_true_iff.mp found).1
      have gone : pitLine ∉ (q.apply (.interrupt pitLine)).waiting := Finset.notMem_erase _ _
      rw [pitWaits, if_neg gone, pitWaits, if_pos waits, Nat.zero_add]
      rfl
    · have same : pitWaits (q.apply (.interrupt l)) = pitWaits q := pitWaits_congr (by
        rw [LineQueue.apply, Finset.mem_erase, and_iff_right (Ne.symm other)])
      rw [same, pitRuns_eq fun handling => other (lineVector_pit.mp (Option.some.inj handling)), Nat.add_zero]
  | spurious bySecond idle =>
    have before : pitRuns s = 0 := pitRuns_eq (by rw [idle]; exact fun same => by cases same)
    refine ⟨handlers, 0, still, ?_⟩
    rw [before, Nat.zero_add]
    obtain ⟨byFirst, asSecond⟩ := picsOf_spurious inv.unwired
    have others : (0x27 : BitVec 8) ≠ 32 ∧ (0x2F : BitVec 8) ≠ 32 := by decide
    have vector : (s.pics.spurious bySecond).1 ≠ 32 := by
      rw [inv.idle idle]
      cases bySecond with
      | false =>
        rw [byFirst]
        exact others.1
      | true =>
        rw [asSecond]
        exact others.2
    rw [pitRuns_eq fun handling => vector (Option.some.inj handling)]
    rfl
  | @dispatch v handled =>
    obtain ⟨ticks, kept⟩ := @dispatch_ticks s handlers v
    refine ⟨kept, if v = 32 then 1 else 0, ?_, ?_⟩
    · rw [ticks]
      split <;> rfl
    · have after : pitRuns (s.dispatch KernelHandler.run v) = 0 := pitRuns_eq fun same => by cases same
      have before : pitRuns s = if v = 32 then 1 else 0 := by
        rw [pitRuns, handled]
        exact if_congr Option.some_inj rfl rfl
      rw [after, before, Nat.add_zero, Nat.add_comm]
      rfl

end Steps

/-! ## Runs -/

/-- The system with its queue: the line waits only while the output is high, and no interrupt was taken since it
rose; and every period is counted, handled, waiting or lost. -/
structure ClockInv (start : BitVec 64) (c : ClockQueue) (s : ClockSystem) : Prop where
  lines : LineInv c.queue s.lines
  handlers : ∀ v, (s.lines.irq.table v).handler = kernelHandlerOf v
  pit : s.pit = pitAfter c.clocks
  opened : c.queue.firstMask.getLsbD 0 = false
  high : pitLine ∈ c.queue.waiting → c.clocks % pitDivisor < (pitDivisor + 1) / 2
  unanswered : pitLine ∈ c.queue.waiting → c.answered = false
  ticks : ∃ n, s.lines.irq.world.pitTicks = start + BitVec.ofNat 64 n ∧
    n + pitWaits c.queue + pitRuns s.lines + c.lost = c.clocks / pitDivisor

section Clock

variable {start : BitVec 64} {c : ClockQueue} {s s' : ClockSystem} {e : ClockEvent}

theorem pitLine_direct : pitLine ≠ .first cascadeLine := by decide

theorem pitWaits_of {q : LineQueue} (waits : pitLine ∈ q.waiting) : pitWaits q = 1 := if_pos waits
theorem pitWaits_not {q : LineQueue} (silent : pitLine ∉ q.waiting) : pitWaits q = 0 := if_neg silent

/-- A clock of the timer. -/
theorem ClockInv.clock (inv : ClockInv start c s) : ClockInv start c.clock s.clock := by
  obtain ⟨n, ticks, total⟩ := inv.ticks
  have divisor : pitDivisor = 11931 := rfl
  have high := inv.high
  rw [divisor] at total high
  rw [ClockSystem.clock, inv.pit, pitAfter_clock, ClockQueue.clock]
  dsimp only
  rcases em (ClockQueue.Rises (c.clocks + 1)) with rises | flat
  · rw [if_pos rises, if_pos rises]
    rw [ClockQueue.Rises, divisor] at rises
    have silent : pitLine ∉ c.queue.waiting := fun waits => absurd (high waits) (by omega)
    refine ⟨(inv.lines.step kernelHandlers_quiet (.request _ pitLine_direct)).1, inv.handlers, rfl, inv.opened,
      fun _ => ?_, fun _ => rfl, n, ticks, ?_⟩
    · rw [divisor]
      dsimp only
      omega
    · have waits : pitLine ∈ (c.queue.apply (.request pitLine)).waiting := Finset.mem_insert_self _ _
      rw [pitWaits_not silent] at total
      rw [pitWaits_of waits, divisor]
      dsimp only [pitRuns] at total ⊢
      omega
  rw [if_neg flat, if_neg flat]
  rw [ClockQueue.Rises, divisor] at flat
  rcases em (ClockQueue.Falls (c.clocks + 1)) with falls | steady
  · rw [if_pos falls, if_pos falls]
    have gone : pitLine ∉ (c.queue.apply (.withdraw pitLine)).waiting := Finset.notMem_erase _ _
    refine ⟨(inv.lines.step kernelHandlers_quiet (.withdraw _ _)).1, inv.handlers, rfl, inv.opened,
      fun waits => absurd waits gone, fun waits => absurd waits gone, n, ticks, ?_⟩
    rw [pitWaits_not gone, divisor]
    dsimp only [pitRuns, pitWaits] at total ⊢
    omega
  · rw [if_neg steady, if_neg steady]
    rw [ClockQueue.Falls, divisor] at steady
    refine ⟨inv.lines, inv.handlers, rfl, inv.opened, fun waits => ?_, inv.unanswered, n, ticks, ?_⟩
    · have low := high waits
      rw [divisor]
      dsimp only
      omega
    · rw [divisor]
      dsimp only
      omega

/-- The timer's line is the first. -/
theorem next_pitLine {q : LineQueue} (waits : pitLine ∈ q.waiting) (opened : q.firstMask.getLsbD 0 = false) :
    q.next = some pitLine := by
  have first : linesByPriority = pitLine :: linesByPriority.tail := rfl
  have chosen : (decide (pitLine ∈ q.waiting) && q.opens pitLine) = true := by
    rw [decide_eq_true waits, Bool.true_and, pitLine, LineQueue.opens]
    exact congrArg Bool.not opened
  rw [LineQueue.next, first]
  exact List.find?_cons_of_pos chosen

theorem apply_line (c : ClockQueue) (e : LineEvent) :
    (c.apply (.line e)).queue = c.queue.apply e ∧ (c.apply (.line e)).clocks = c.clocks ∧
      (c.apply (.line e)).lost = c.lost := by
  cases e <;> exact ⟨rfl, rfl, rfl⟩

/-- Only the timer asks for its line. -/
theorem waiting_before {q : LineQueue} {e : LineEvent} (asks : e ≠ .request pitLine)
    (waits : pitLine ∈ (q.apply e).waiting) : pitLine ∈ q.waiting := by
  cases e with
  | request l => exact Finset.mem_of_mem_insert_of_ne waits fun same => asks (congrArg _ same.symm)
  | withdraw l => exact Finset.mem_of_mem_erase waits
  | mask ofSecond value => cases ofSecond <;> exact waits
  | interrupt l => exact Finset.mem_of_mem_erase waits
  | spurious bySecond => exact waits
  | dispatch => exact waits

/-- A step of the controllers, where the masks leave the timer's line open. -/
theorem ClockInv.line (inv : ClockInv start c s) {e : LineEvent} {lines : LineSystem KernelHandler KernelWorld}
    (asks : e ≠ .request pitLine) (withdraws : e ≠ .withdraw pitLine)
    (step : LineStep KernelHandler.run s.lines e lines)
    (unmasked : ∀ value, e = .mask false value → value.getLsbD 0 = false) :
    ClockInv start (c.apply (.line e)) { s with lines } := by
  obtain ⟨n, ticks, total⟩ := inv.ticks
  obtain ⟨kept, next⟩ := inv.lines.step kernelHandlers_quiet step
  obtain ⟨handlers, more, counted, moved⟩ := inv.lines.ticks inv.handlers step asks withdraws
  obtain ⟨queue, clocks, lost⟩ := apply_line c e
  refine ⟨queue ▸ kept, handlers, clocks ▸ inv.pit, ?_, fun waits => ?_, fun waits => ?_, n + more, ?_, ?_⟩
  · rw [queue]
    cases e with
    | mask ofSecond value =>
      cases ofSecond with
      | false => exact unmasked value rfl
      | true => exact inv.opened
    | _ => exact inv.opened
  · rw [queue] at waits
    rw [clocks]
    exact inv.high (waiting_before asks waits)
  · rw [queue] at waits
    have before := waiting_before asks waits
    cases e with
    | interrupt l =>
      have taken := (next l rfl).symm.trans (next_pitLine before inv.opened)
      obtain rfl := Option.some.inj taken
      exact absurd waits (Finset.notMem_erase _ _)
    | _ => exact inv.unanswered before
  · rw [counted, ticks, BitVec.add_assoc, BitVec.ofNat_add]
  · rw [queue, clocks, lost]
    dsimp only
    omega

/-- A step, and what it loses. -/
theorem ClockInv.step (inv : ClockInv start c s) (step : ClockStep s e s')
    (unmasked : ∀ value, e = .line (.mask false value) → value.getLsbD 0 = false) :
    ClockInv start (c.apply e) s' ∧
      ((e = .clock → ClockQueue.Falls (c.clocks + 1) → c.answered = true) → (c.apply e).lost = c.lost) := by
  cases step with
  | clock =>
    refine ⟨inv.clock, fun prompt => ?_⟩
    rw [ClockQueue.apply, ClockQueue.clock]
    split
    · rfl
    split
    · next falls =>
      have silent : pitLine ∉ c.queue.waiting := fun waits =>
        Bool.false_ne_true ((inv.unanswered waits).symm.trans (prompt rfl falls))
      exact if_neg silent ▸ Nat.add_zero _
    · rfl
  | @line e lines asks withdraws lineStep =>
    refine ⟨inv.line asks withdraws lineStep fun value same => unmasked value (congrArg _ same), fun _ => ?_⟩
    exact (apply_line c e).2.2

theorem foldl_clocks (es : List ClockEvent) (c : ClockQueue) :
    (es.foldl ClockQueue.apply c).clocks = c.clocks + es.count .clock := by
  induction es generalizing c with
  | nil => rfl
  | cons e rest ih =>
    rw [List.foldl_cons, ih, List.count_cons]
    cases e with
    | clock =>
      have one : (c.apply .clock).clocks = c.clocks + 1 := by
        rw [ClockQueue.apply, ClockQueue.clock]
        split
        · rfl
        split <;> rfl
      rw [one, if_pos (beq_self_eq_true _), Nat.add_assoc, Nat.add_comm 1]
    | line e =>
      have other : (ClockEvent.line e == .clock) = false := rfl
      rw [(apply_line c e).2.1, other]
      rfl

end Clock

/-- The interrupts of the timer that are still to be counted. -/
def ClockSystem.outstanding (s : ClockSystem) : ℕ :=
  (if timerInput ∈ s.lines.pics.first.irr then 1 else 0) + if s.lines.handling = some 32 then 1 else 0

/-- After `pic_remap`, `init_pit` and the mask of `kernel_main`, for every run that leaves the timer's line open:
`pit_ticks` counts the periods of 11931 clocks that have passed, but for one that waits or is handled, and for those
in which the output fell before the processor took the timer's interrupt. There are none of these when in every period
the processor takes some interrupt while the output is high, since the timer's line is the first. -/
theorem pit_ticks_follow_clock {irq : IrqState KernelHandler KernelWorld} {p : Pics} {pit : Pit}
    (first : p.first.isr = ∅) (second : p.second.isr = ∅) {es : List ClockEvent} {s : ClockSystem}
    (run : Path ClockStep
      ⟨pit.writes initPit, kernelIrqs irq, p.writes (picRemap ++ [.outb pic1Data 0xFC]), none⟩ es s)
    (unmasked : ∀ value, .line (.mask false value) ∈ es → value.getLsbD 0 = false) :
    (∃ ticks, s.lines.irq.world.pitTicks = irq.world.pitTicks + BitVec.ofNat 64 ticks ∧
      ticks + s.outstanding + (es.foldl ClockQueue.apply kernelClock).lost = es.count .clock / pitDivisor) ∧
    (Prompt es → (es.foldl ClockQueue.apply kernelClock).lost = 0) := by
  have programmed : p.writes (picRemap ++ [.outb pic1Data 0xFC]) = picsOf kernelClock.queue ∅ ∅ := by
    have remapped := picRemap_writes first second
    rw [Pics.writes] at remapped ⊢
    rw [List.foldl_append, remapped]
    rfl
  have opened : (0xFC : BitVec 8).getLsbD 0 = false := by decide
  obtain ⟨inv, kept⟩ := run.snoc_induction (fun es s =>
    (∀ value, .line (.mask false value) ∈ es → value.getLsbD 0 = false) →
      ClockInv irq.world.pitTicks (es.foldl ClockQueue.apply kernelClock) s ∧
        (Prompt es → (es.foldl ClockQueue.apply kernelClock).lost = 0))
    (fun _ => ⟨⟨⟨Finset.notMem_empty _, ∅, ∅, programmed, rfl, rfl⟩, fun v => (kernelIrqs_entry irq v).1,
      initPit_writes pit, opened, fun waits => absurd waits (Finset.notMem_empty _),
      fun waits => absurd waits (Finset.notMem_empty _), 0, (BitVec.add_zero _).symm, rfl⟩, fun _ => rfl⟩)
    (by
      rintro es mid e t - ih step unmasked
      obtain ⟨inv, kept⟩ := ih fun value member => unmasked value (List.mem_append_left _ member)
      obtain ⟨next, lost⟩ := inv.step step fun value same => unmasked value (by
        rw [same]
        exact List.mem_append_right _ (List.mem_singleton_self _))
      rw [List.foldl_append, List.foldl_cons, List.foldl_nil]
      refine ⟨next, fun prompt => ?_⟩
      rw [lost, kept]
      · exact fun done before => prompt done (before.trans (List.prefix_append _ _))
      · rintro rfl falls
        rw [foldl_clocks] at falls
        refine prompt es (List.prefix_refl _) ?_
        rwa [kernelClock, Nat.zero_add] at falls)
    unmasked
  refine ⟨?_, kept⟩
  obtain ⟨ticks, counted, total⟩ := inv.ticks
  obtain ⟨firstIsr, secondIsr, chips, _⟩ := inv.lines.chips
  refine ⟨ticks, counted, ?_⟩
  have waits : timerInput ∈ s.lines.pics.first.irr ↔
      pitLine ∈ (es.foldl ClockQueue.apply kernelClock).queue.waiting := by
    rw [chips, picsOf, Finset.mem_filter_univ]
    rfl
  rw [foldl_clocks, kernelClock, Nat.zero_add, Nat.add_assoc ticks] at total
  rw [ClockSystem.outstanding, if_congr waits rfl rfl]
  exact total

/-! ## A run of the timer -/

/-- A run, and what it makes of the queue. -/
def ClockRun (es : List ClockEvent) (s : ClockSystem) (c : ClockQueue) (s' : ClockSystem) (c' : ClockQueue) : Prop :=
  Path ClockStep s es s' ∧ es.foldl ClockQueue.apply c = c'

section ClockRun

variable {s s' s'' : ClockSystem} {c c' c'' : ClockQueue}

theorem ClockRun.append {first second : List ClockEvent} (left : ClockRun first s c s' c')
    (right : ClockRun second s' c' s'' c'') : ClockRun (first ++ second) s c s'' c'' := by
  refine ⟨left.1.append right.1, ?_⟩
  rw [List.foldl_append, left.2, right.2]

theorem ClockRun.single {e : ClockEvent} (step : ClockStep s e s') : ClockRun [e] s c s' (c.apply e) :=
  ⟨.cons step (.nil _), rfl⟩

/-- Clocks at which the output does not change. -/
theorem steady_clocks (pit : s.pit = pitAfter c.clocks) {n : ℕ}
    (steady : ∀ k < n, ¬ClockQueue.Rises (c.clocks + k + 1) ∧ ¬ClockQueue.Falls (c.clocks + k + 1)) :
    ClockRun (List.replicate n .clock) s c { s with pit := pitAfter (c.clocks + n) }
      { c with clocks := c.clocks + n } := by
  induction n with
  | zero =>
    obtain ⟨_, lines⟩ := s
    cases pit
    exact ⟨.nil _, rfl⟩
  | succ n ih =>
    obtain ⟨flat, level⟩ := steady n (Nat.lt_succ_self n)
    have before := ih fun k less => steady k (Nat.lt_succ_of_lt less)
    rw [List.replicate_succ']
    have last := ClockRun.single (c := { c with clocks := c.clocks + n })
      (.clock { s with pit := pitAfter (c.clocks + n) })
    simp only [ClockSystem.clock, pitAfter_clock, ClockQueue.apply, ClockQueue.clock, if_neg flat, if_neg level] at last
    exact before.append last

/-- The half of a period in which the output is high. -/
theorem high_half (pit : s.pit = pitAfter c.clocks) (start : c.clocks % pitDivisor = 0) :
    ClockRun (List.replicate 5966 .clock) s c
      ⟨pitAfter (c.clocks + 5966), { s.lines with pics := s.lines.pics.withdraw pitLine }⟩
      { c with
        queue := c.queue.apply (.withdraw pitLine)
        clocks := c.clocks + 5966
        lost := c.lost + if pitLine ∈ c.queue.waiting then 1 else 0 } := by
  have divisor : pitDivisor = 11931 := rfl
  rw [divisor] at start
  have flat : ¬ClockQueue.Rises (c.clocks + 5965 + 1) := by
    rw [ClockQueue.Rises, divisor]
    omega
  have falls : ClockQueue.Falls (c.clocks + 5965 + 1) := by
    rw [ClockQueue.Falls, divisor]
    omega
  have before := steady_clocks pit (n := 5965) fun k less => by
    rw [ClockQueue.Rises, ClockQueue.Falls, divisor]
    omega
  have last := ClockRun.single (c := { c with clocks := c.clocks + 5965 })
    (.clock { s with pit := pitAfter (c.clocks + 5965) })
  simp only [ClockSystem.clock, pitAfter_clock, ClockQueue.apply, ClockQueue.clock, if_neg flat, if_pos falls] at last
  rw [List.replicate_succ']
  exact before.append last

/-- The other half, after which the output rises. -/
theorem low_half (pit : s.pit = pitAfter c.clocks) (start : c.clocks % pitDivisor = 5966) :
    ClockRun (List.replicate 5965 .clock) s c
      ⟨pitAfter (c.clocks + 5965), { s.lines with pics := s.lines.pics.request pitLine }⟩
      { c with
        queue := c.queue.apply (.request pitLine)
        clocks := c.clocks + 5965
        answered := false } := by
  have divisor : pitDivisor = 11931 := rfl
  rw [divisor] at start
  have rises : ClockQueue.Rises (c.clocks + 5964 + 1) := by
    rw [ClockQueue.Rises, divisor]
    omega
  have before := steady_clocks pit (n := 5964) fun k less => by
    rw [ClockQueue.Rises, ClockQueue.Falls, divisor]
    omega
  have last := ClockRun.single (c := { c with clocks := c.clocks + 5964 })
    (.clock { s with pit := pitAfter (c.clocks + 5964) })
  simp only [ClockSystem.clock, pitAfter_clock, ClockQueue.apply, ClockQueue.clock, if_pos rises] at last
  rw [List.replicate_succ']
  exact before.append last

end ClockRun

/-- After `kernel_main` has programmed the timer. -/
def sampleClock : ClockSystem where
  pit := Pit.writes {} initPit
  lines :=
    { irq := kernelIrqs ⟨fun _ => {}, [], { xhci := sampleKeyboard }⟩
      pics := Pics.writes {} (picRemap ++ [.outb pic1Data 0xFC]) }

/-- Two periods and a half, of which the processor takes the first interrupt only. -/
def samplePeriods : List ClockEvent :=
  let half (n : ℕ) : List ClockEvent := List.replicate n .clock
  half 5966 ++ half 5965 ++ [.line (.interrupt pitLine)] ++ [.line .dispatch] ++ half 5966 ++ half 5965 ++ half 5966

theorem samplePeriods_run :
    ∃ s c, ClockRun samplePeriods sampleClock kernelClock s c ∧ s.outstanding = 0 ∧ c.lost = 1 := by
  have one := high_half (s := sampleClock) (c := kernelClock) (initPit_writes {}) rfl
  have raised := one.append (low_half rfl rfl)
  have taken := raised.append (.single (.line (fun same => by cases same) (fun same => by cases same)
    (.interrupt (l := pitLine) rfl rfl)))
  have counted := taken.append (.single (.line (fun same => by cases same) (fun same => by cases same)
    (.dispatch rfl)))
  have second := (counted.append (high_half rfl rfl)).append (low_half rfl rfl)
  have third := second.append (high_half rfl rfl)
  exact ⟨_, _, third, by decide, by decide⟩

/-- One period is counted, and one is lost. -/
theorem pit_ticks_follow_clock_sample :
    ∃ s : ClockSystem, Path ClockStep sampleClock samplePeriods s ∧ s.lines.irq.world.pitTicks = 1 ∧
      s.outstanding = 0 ∧ (samplePeriods.foldl ClockQueue.apply kernelClock).lost = 1 := by
  obtain ⟨s, c, ⟨run, queue⟩, none, lost⟩ := samplePeriods_run
  rw [← queue] at lost
  obtain ⟨⟨ticks, counted, total⟩, _⟩ := pit_ticks_follow_clock rfl rfl run fun value member => by
    simp only [samplePeriods, List.mem_append, List.mem_replicate, List.mem_singleton, reduceCtorEq, and_false,
      or_false, ClockEvent.line.injEq] at member
  have periods : samplePeriods.count .clock = 29828 := by
    simp only [samplePeriods, List.count_append, List.count_replicate_self]
    rfl
  have divisor : pitDivisor = 11931 := rfl
  rw [none, lost, periods, divisor] at total
  obtain rfl : ticks = 1 := by omega
  exact ⟨s, run, counted.trans (BitVec.zero_add _), none, lost⟩

end RaryOS.Soundness
