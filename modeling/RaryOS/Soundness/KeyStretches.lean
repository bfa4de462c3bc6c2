import RaryOS.Proofs.KeyboardInterrupt

/-! # Disturbed transfers of the keyboard

`handle_interrupt` processes the report buffer after every transfer, also after one that failed and left
the buffer zeroed, and it takes the key codes of a rollover report as they are. Both look as if all keys
had been released, so a key that is still held is pushed again by the next genuine report.
-/

namespace RaryOS.Soundness

open RaryOS.Core RaryOS.Model

/-- The completion of an interrupt-in transfer: the controller's event, and what the device sent. -/
structure Completion where
  event : Trb
  report : ℕ → ℕ

namespace Completion

/-- Success, or a short packet. -/
def Succeeded (c : Completion) : Prop := c.event.code = 1 ∨ c.event.code = 13

instance (c : Completion) : Decidable c.Succeeded := inferInstanceAs (Decidable (_ ∨ _))

/-- What the transfer leaves in the buffer: the report, or nothing when it failed. -/
def buffer (c : Completion) (intrBuf : ℕ → ℕ) : ℕ → ℕ := if c.Succeeded then c.report else intrBuf

/-- The key codes in the buffer, which was zeroed before. -/
def keys (c : Completion) : List ℕ := reportKeys (c.buffer fun _ => 0)

/-- A successful transfer of a report that is not `ErrorRollOver`. -/
def Genuine (c : Completion) : Prop := c.Succeeded ∧ c.keys ≠ List.replicate 6 1

instance (c : Completion) : Decidable c.Genuine := inferInstanceAs (Decidable (_ ∧ _))

/-- A disturbed transfer shows no key with a character. -/
theorem unmapped_of_disturbed (c : Completion) (disturbed : ¬c.Genuine) :
    ∀ k ∈ c.keys, ¬mappedKey k = true := by
  intro k member
  by_cases succeeded : c.Succeeded
  · have rollover : c.keys = List.replicate 6 1 := by
      by_contra other
      exact disturbed ⟨succeeded, other⟩
    rw [rollover] at member
    obtain rfl := List.eq_of_mem_replicate member
    decide
  · rw [keys, buffer, if_neg succeeded] at member
    have zero : reportKeys (fun _ => 0) = List.replicate 6 0 := rfl
    obtain rfl := List.eq_of_mem_replicate (zero ▸ member)
    decide

end Completion

/-- The driver with the event ring, the controller's place in it, and the key codes pushed for each
completion. -/
structure KeyboardSystem where
  x : Xhci
  producer : RingProducer
  pushed : List (List ℕ) := []

/-- The driver and the controller as a system with the ring, everything posted being consumed. -/
def KeyboardSystem.events (s : KeyboardSystem) (posted : List Trb) : EventSystem :=
  ⟨s.x, s.producer, posted, posted⟩

/-- The controller completes the outstanding transfer, or posts another event. -/
inductive KeyboardEvent where
  | completion (c : Completion)
  | other (e : Trb)

/-- One interrupt: the controller fills the buffer and posts an event, then `handle_interrupt` runs. -/
inductive KeyboardStep : KeyboardSystem → KeyboardEvent → KeyboardSystem → Prop
  | completion (s : KeyboardSystem) (c : Completion) : s.x.IsKeyboard c.event →
      KeyboardStep s (.completion c)
        (let filled : EventSystem :=
          ({ s with x := { s.x with intrBuf := c.buffer s.x.intrBuf } } : KeyboardSystem).events []
        { x := (filled.post c.event).x.handleInterrupt
          producer := s.producer.advance
          pushed := s.pushed ++ [(filled.post c.event).x.interruptPushes] })
  | other (s : KeyboardSystem) (e : Trb) : e.Expected → ¬s.x.IsKeyboard e →
      KeyboardStep s (.other e)
        { s with
          x := ((s.events []).post e).x.handleInterrupt
          producer := s.producer.advance }

/-- The completions of a run. -/
def completions (es : List KeyboardEvent) : List Completion :=
  es.filterMap fun
    | .completion c => some c
    | .other _ => none

/-- Reports whose nonzero codes are distinct have no key twice. -/
theorem noDoubles_of_distinct {cs : List Completion}
    (distinct : ∀ c ∈ cs, (c.keys.filter (· ≠ 0)).Nodup) :
    NoDoubles mappedKey Completion.keys (List.replicate 6 0) cs := by
  intro before c after split_ k mapped twice
  have nonzero : k ≠ 0 := by
    rintro rfl
    exact absurd mapped (by decide)
  have once := count_key_le_one (distinct c (split_ ▸ by simp)) nonzero
  omega

/-- The keyboard is set up: nothing is unconsumed, `prev_keys` and the buffer are zeroed. -/
structure KeyboardArmed (x : Xhci) (producer : RingProducer) : Prop where
  ring : ∃ base posted, EventInv base ⟨x, producer, posted, posted⟩
  prevKeys : x.prevKeys = List.replicate 6 0
  intrBuf : x.intrBuf = fun _ => 0
  active : 0 < x.usbActiveSlot

/-- In every stretch whose genuine reports all contain a key, it is pushed at most once. -/
def PushedOnce (cs : List Completion) (pushed : List (List ℕ)) : Prop :=
  ∀ before stretch after, cs = before ++ stretch ++ after → ∀ k,
    (∀ c ∈ stretch, c.Genuine → k ∈ c.keys) →
      ((pushed.drop before.length).take stretch.length).flatten.count k ≤ 1

/-- The keyboard after some completions. -/
structure KeyboardInv (x : Xhci) (cs : List Completion) (s : KeyboardSystem) : Prop where
  ring : ∃ base posted, EventInv base (s.events posted)
  prevKeys : s.x.prevKeys = (cs.map Completion.keys).getLastD (List.replicate 6 0)
  intrBuf : s.x.intrBuf = fun _ => 0
  hidEpNum : s.x.hidEpNum = x.hidEpNum
  active : 0 < s.x.usbActiveSlot
  pushed : s.pushed = edges mappedKey (List.replicate 6 0) (cs.map Completion.keys)
  input : s.x.input = pushKeys x.input s.pushed.flatten

/-- Every interrupt keeps the invariant. -/
theorem KeyboardStep.inv {x : Xhci} {cs : List Completion} {s t : KeyboardSystem} {e : KeyboardEvent}
    (step : KeyboardStep s e t) (inv : KeyboardInv x cs s) :
    KeyboardInv x (cs ++ completions [e]) t := by
  obtain ⟨base, posted, ring⟩ := inv.ring
  cases step with
  | completion c mine =>
    have filled := (EventStep.transfer (s.events posted) (c.buffer s.x.intrBuf)).inv ring
    have expected : c.event.Expected := .inl mine.1
    obtain ⟨_, _, _, _, _, _, _, drained⟩ := interrupt_of_one filled rfl expected
    have handled := interrupt_keyboard filled rfl expected mine inv.active
    have keys : reportKeys (c.buffer s.x.intrBuf) = c.keys := by rw [inv.intrBuf, Completion.keys]
    have one : completions [.completion c] = [c] := rfl
    have pushes : s.pushed ++ [newItems mappedKey s.x.prevKeys c.keys] =
        edges mappedKey (List.replicate 6 0) ((cs ++ [c]).map Completion.keys) := by
      rw [inv.pushed, List.map_append, edges_append, inv.prevKeys]
      rfl
    have new := handled.pushed.trans (congrArg (newItems mappedKey s.x.prevKeys) keys)
    rw [one]
    refine ⟨⟨base, drained⟩, ?_, handled.intrBuf, handled.hidEpNum.trans inv.hidEpNum, ?_, ?_, ?_⟩
    · rw [List.map_append, List.map_singleton, List.getLastD_concat]
      exact handled.prevKeys.trans keys
    · exact Nat.lt_of_lt_of_eq inv.active handled.usbActiveSlot.symm
    · exact (congrArg (s.pushed ++ [·]) new).trans pushes
    · apply handled.input.trans
      rw [List.flatten_append, List.flatten_singleton, pushKeys, pushKeys, List.foldl_append]
      exact congrArg (pushKeys · _) inv.input
  | other e expected other =>
    obtain ⟨_, _, _, _, _, _, _, drained⟩ := interrupt_of_one ring rfl expected
    obtain ⟨same, none⟩ := interrupt_other ring rfl expected other
    have no : completions [.other e] = [] := rfl
    rw [no, List.append_nil]
    exact ⟨⟨base, drained⟩, same.prevKeys.trans inv.prevKeys, same.intrBuf.trans inv.intrBuf,
      same.hidEpNum.trans inv.hidEpNum, same.usbActiveSlot ▸ inv.active, inv.pushed,
      same.input.trans inv.input⟩

theorem keyboardInv_of_run {x : Xhci} {producer : RingProducer} (armed : KeyboardArmed x producer)
    {es : List KeyboardEvent} {s : KeyboardSystem} (run : Path KeyboardStep ⟨x, producer, []⟩ es s) :
    KeyboardInv x (completions es) s := by
  apply run.snoc_induction (fun es s => KeyboardInv x (completions es) s)
  · exact ⟨armed.ring, armed.prevKeys, armed.intrBuf, rfl, armed.active, rfl, rfl⟩
  · intro es mid e t _ inv step
    rw [completions, List.filterMap_append]
    exact step.inv inv

/-- The pushes of a stretch are what the detector reports in it. -/
private theorem stretch_pushes {before stretch after : List Completion} (prev : List ℕ) :
    ((edges mappedKey prev ((before ++ stretch ++ after).map Completion.keys)).drop
        before.length).take stretch.length =
      edges mappedKey ((before.map Completion.keys).getLastD prev) (stretch.map Completion.keys) := by
  have length (prev : List ℕ) (cs : List Completion) :
      (edges mappedKey prev (cs.map Completion.keys)).length = cs.length := by
    rw [(edges_sublist mappedKey prev _).length_eq, List.length_map]
  rw [List.append_assoc, List.map_append, edges_append, ← length prev before, List.drop_left,
    List.map_append, edges_append, ← length _ stretch, List.take_left]

/-- In every run of interrupts, a key that is in all genuine reports of a stretch is pushed at most once
in it, for all stretches and keys, exactly when no disturbed transfers stand between two successive
genuine reports with a key in common, and no report has a new key twice. -/
theorem pushed_once_iff {x : Xhci} {producer : RingProducer} (armed : KeyboardArmed x producer)
    {es : List KeyboardEvent} {s : KeyboardSystem} (run : Path KeyboardStep ⟨x, producer, []⟩ es s) :
    (PushedOnce (completions es) s.pushed ↔
      DisturbedApart mappedKey Completion.keys Completion.Genuine (completions es) ∧
        NoDoubles mappedKey Completion.keys (List.replicate 6 0) (completions es)) ∧
      s.x.input = pushKeys x.input s.pushed.flatten := by
  have inv := keyboardInv_of_run armed run
  refine ⟨?_, inv.input⟩
  rw [← reportedOnce_iff Completion.unmapped_of_disturbed fun k member => by
    rw [List.eq_of_mem_replicate member]
    decide]
  rw [PushedOnce, ReportedOnce, inv.pushed]
  refine forall_congr' fun before => forall_congr' fun stretch => forall_congr' fun after =>
    forall_congr' fun split_ => ?_
  rw [split_, stretch_pushes]
  rfl

/-- The controller may complete the transfers of the keyboard in any way. -/
theorem exists_run {x : Xhci} {producer : RingProducer} (armed : KeyboardArmed x producer)
    (cs : List Completion) (mine : ∀ c ∈ cs, x.IsKeyboard c.event) :
    ∃ s, Path KeyboardStep ⟨x, producer, []⟩ (cs.map .completion) s := by
  induction cs using List.reverseRecOn with
  | nil => exact ⟨_, .nil _⟩
  | append_singleton cs c ih =>
    obtain ⟨s, run⟩ := ih fun c member => mine c (List.mem_append_left _ member)
    have kept := (keyboardInv_of_run armed run).hidEpNum
    have here : s.x.IsKeyboard c.event := by
      rw [Xhci.IsKeyboard, kept]
      exact mine c (List.mem_append_right _ (List.mem_singleton_self c))
    rw [List.map_append, List.map_singleton]
    exact ⟨_, run.snoc (.completion s c here)⟩

/-- A keyboard on endpoint 1, and a completion of its transfers. -/
def sampleKeyboard : Xhci :=
  ({ evtRingPhys := 0, hidEpNum := 1, usbActiveSlot := 1 } : Xhci).setupEvtRing 0x180000

theorem sampleKeyboard_armed : KeyboardArmed sampleKeyboard {} :=
  ⟨⟨0x180000, [], .setup _ _⟩, rfl, rfl, by decide⟩

def sampleCompletion (code first : ℕ) : Completion where
  event := ⟨0, code <<< 24, 3 <<< 16 ||| xhciTrbXferEvt <<< 10⟩
  report := fun i => if i = 2 then first else 0

/-- The key 4 is held while a transfer fails with a transaction error, and is pushed twice. -/
theorem pushed_once_fails :
    ∃ s, Path KeyboardStep ⟨sampleKeyboard, {}, []⟩
        (([sampleCompletion 1 4, sampleCompletion 4 0, sampleCompletion 1 4] : List Completion).map
          .completion) s ∧
      s.pushed = [[4], [], [4]] ∧
      ¬PushedOnce [sampleCompletion 1 4, sampleCompletion 4 0, sampleCompletion 1 4] s.pushed := by
  obtain ⟨s, run⟩ := exists_run sampleKeyboard_armed
    [sampleCompletion 1 4, sampleCompletion 4 0, sampleCompletion 1 4] (by decide)
  have pushed : s.pushed = [[4], [], [4]] := (keyboardInv_of_run sampleKeyboard_armed run).pushed.trans (by decide)
  refine ⟨s, run, pushed, fun once => ?_⟩
  have bound := once [] [sampleCompletion 1 4, sampleCompletion 4 0, sampleCompletion 1 4] [] rfl 4
    (by decide)
  rw [pushed] at bound
  exact absurd bound (by decide)

/-- Another key after the failure is no repetition. -/
theorem pushed_once_iff_sample :
    ∃ s, Path KeyboardStep ⟨sampleKeyboard, {}, []⟩
        (([sampleCompletion 1 4, sampleCompletion 4 0, sampleCompletion 1 5] : List Completion).map
          .completion) s ∧
      PushedOnce [sampleCompletion 1 4, sampleCompletion 4 0, sampleCompletion 1 5] s.pushed := by
  obtain ⟨s, run⟩ := exists_run sampleKeyboard_armed
    [sampleCompletion 1 4, sampleCompletion 4 0, sampleCompletion 1 5] (by decide)
  refine ⟨s, run, (pushed_once_iff sampleKeyboard_armed run).1.mpr ⟨?_, noDoubles_of_distinct (by decide)⟩⟩
  intro before c bad d after split_ _ _ nonempty _ k mapped inFirst inLast
  have length := congrArg List.length split_
  have positive := List.length_pos_iff.mpr nonempty
  simp only [completions, List.map_cons, List.map_nil, List.filterMap_cons, List.filterMap_nil,
    List.length_cons, List.length_nil, List.length_append] at length
  obtain rfl : before = [] := List.length_eq_zero_iff.mp (by omega)
  obtain rfl : after = [] := List.length_eq_zero_iff.mp (by omega)
  obtain ⟨b, rfl⟩ := List.length_eq_one_iff.mp (show bad.length = 1 by omega)
  simp only [completions, List.map_cons, List.map_nil, List.filterMap_cons, List.filterMap_nil,
    List.nil_append, List.cons_append, List.cons.injEq, and_true] at split_
  obtain ⟨rfl, _, rfl⟩ := split_
  have both : ∀ k ∈ (sampleCompletion 1 4).keys, k ∈ (sampleCompletion 1 5).keys → ¬mappedKey k := by decide
  exact both k inFirst inLast mapped

end RaryOS.Soundness
