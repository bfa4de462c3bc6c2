import Mathlib.Data.Finset.Filter
import RaryOS.Core.Path
import RaryOS.Model.Pic
import RaryOS.Soundness.IrqRuns

/-! # The interrupt controllers as one queue

As `pic_remap` programs the two chips and `irq_dispatch` ends what they have in service, they are one queue of fifteen
lines. A request that is not masked is never held up by an interrupt that was handled, and the processor gets the
vectors from 32 to 47 that the kernel's table has for the lines.
-/

namespace RaryOS.Soundness

open RaryOS.Core RaryOS.Model

/-- The vector of a line, as the kernel knows it. -/
def lineVector : IrqLine → BitVec 8
  | .first k => 0x20 + BitVec.ofNat 8 k
  | .second k => 0x28 + BitVec.ofNat 8 k

/-- The lines by priority: the second chip's are in the place of the input that it is wired to. -/
def linesByPriority : List IrqLine :=
  (List.finRange 8).flatMap fun k => if k = cascadeLine then (List.finRange 8).map .second else [.first k]

/-- The queue: the lines that wait, and the two masks. -/
structure LineQueue where
  waiting : Finset IrqLine := ∅
  firstMask : BitVec 8 := 0xFF
  secondMask : BitVec 8 := 0xFF

inductive LineEvent where
  | request (l : IrqLine)
  | withdraw (l : IrqLine)
  | mask (ofSecond : Bool) (value : BitVec 8)
  | interrupt (l : IrqLine)
  | spurious (bySecond : Bool)
  | dispatch
deriving DecidableEq

namespace LineQueue

/-- The line is not masked. -/
def opens (q : LineQueue) : IrqLine → Bool
  | .first k => !q.firstMask.getLsbD k
  | .second k => !q.firstMask.getLsbD cascadeLine && !q.secondMask.getLsbD k

/-- The line that is served next. -/
def next (q : LineQueue) : Option IrqLine := linesByPriority.find? fun l => decide (l ∈ q.waiting) && q.opens l

def apply (q : LineQueue) : LineEvent → LineQueue
  | .request l => { q with waiting := insert l q.waiting }
  | .withdraw l => { q with waiting := q.waiting.erase l }
  | .mask false value => { q with firstMask := value }
  | .mask true value => { q with secondMask := value }
  | .interrupt l => { q with waiting := q.waiting.erase l }
  | .spurious _ => q
  | .dispatch => q

end LineQueue

/-- The controllers, the interrupt table, and the vector whose stub runs. -/
structure LineSystem (H σ : Type*) where
  irq : IrqState H σ
  pics : Pics
  handling : Option (BitVec 8) := none

section System

variable {H σ : Type*}

/-- `irq_dispatch`, whose writes go to the controllers. -/
def LineSystem.dispatch (run : H → σ → σ × List DeviceWrite) (s : LineSystem H σ) (v : BitVec 8) : LineSystem H σ :=
  let irq := irqDispatch run s.irq (v.setWidth 64)
  { irq, pics := s.pics.writes (irq.writes.drop s.irq.writes.length) }

/-- Devices ask and take back at any time. The processor acknowledges while no interrupt is handled: the gates
disable interrupts. -/
inductive LineStep (run : H → σ → σ × List DeviceWrite) : LineSystem H σ → LineEvent → LineSystem H σ → Prop
  | request (s : LineSystem H σ) {l : IrqLine} : l ≠ .first cascadeLine →
      LineStep run s (.request l) { s with pics := s.pics.request l }
  | withdraw (s : LineSystem H σ) (l : IrqLine) : LineStep run s (.withdraw l) { s with pics := s.pics.withdraw l }
  | mask (s : LineSystem H σ) (ofSecond : Bool) (value : BitVec 8) :
      LineStep run s (.mask ofSecond value)
        { s with pics := s.pics.write (.outb (if ofSecond then pic2Data else pic1Data) value) }
  | interrupt {s : LineSystem H σ} {l : IrqLine} {pics : Pics} : s.handling = none →
      s.pics.acknowledge = some (lineVector l, pics) →
      LineStep run s (.interrupt l) { s with pics, handling := some (lineVector l) }
  | spurious {s : LineSystem H σ} (bySecond : Bool) : s.handling = none →
      LineStep run s (.spurious bySecond)
        { s with pics := (s.pics.spurious bySecond).2, handling := some (s.pics.spurious bySecond).1 }
  | dispatch {s : LineSystem H σ} {v : BitVec 8} : s.handling = some v → LineStep run s .dispatch (s.dispatch run v)

end System

/-! ## The chips for a queue -/

/-- The chips as `pic_remap` leaves them, with the masks and requests of a queue. -/
def picsOf (q : LineQueue) (firstIsr secondIsr : Finset (Fin 8)) : Pics where
  first :=
    { imr := q.firstMask
      irr := {k | .first k ∈ q.waiting}
      isr := firstIsr
      needsIcw4 := true
      offset := 0x20
      cascade := 0x04
      mode := 1 }
  second :=
    { imr := q.secondMask
      irr := {k | .second k ∈ q.waiting}
      isr := secondIsr
      needsIcw4 := true
      offset := 0x28
      cascade := 0x02
      mode := 1 }

section Chips

variable {q : LineQueue} {firstIsr secondIsr : Finset (Fin 8)}

/-- Whatever the chips were told before. -/
theorem picRemap_writes {p : Pics} (first : p.first.isr = ∅) (second : p.second.isr = ∅) :
    p.writes picRemap = picsOf {} ∅ ∅ := by
  obtain ⟨⟨imr, irr, isr, single, needsIcw4, offset, cascade, mode, expects⟩,
    ⟨imr', irr', isr', single', needsIcw4', offset', cascade', mode', expects'⟩⟩ := p
  cases first
  cases second
  rfl

theorem picsOf_request (l : IrqLine) :
    (picsOf q firstIsr secondIsr).request l = picsOf (q.apply (.request l)) firstIsr secondIsr := by
  cases l with
  | first k =>
    simp only [picsOf, Pics.request, LineQueue.apply, Finset.mem_insert, reduceCtorEq, false_or, IrqLine.first.injEq]
    congr 2
    ext j
    simp only [Finset.mem_insert, Finset.mem_filter, Finset.mem_univ, true_and]
  | second k =>
    simp only [picsOf, Pics.request, LineQueue.apply, Finset.mem_insert, reduceCtorEq, false_or, IrqLine.second.injEq]
    congr 2
    ext j
    simp only [Finset.mem_insert, Finset.mem_filter, Finset.mem_univ, true_and]

theorem picsOf_withdraw (l : IrqLine) :
    (picsOf q firstIsr secondIsr).withdraw l = picsOf (q.apply (.withdraw l)) firstIsr secondIsr := by
  cases l with
  | first k =>
    simp only [picsOf, Pics.withdraw, LineQueue.apply, Finset.mem_erase, ne_eq, reduceCtorEq, not_false_eq_true,
      true_and, IrqLine.first.injEq]
    congr 2
    ext j
    simp only [Finset.mem_erase, ne_eq, Finset.mem_filter, Finset.mem_univ, true_and]
  | second k =>
    simp only [picsOf, Pics.withdraw, LineQueue.apply, Finset.mem_erase, ne_eq, reduceCtorEq, not_false_eq_true,
      true_and, IrqLine.second.injEq]
    congr 2
    ext j
    simp only [Finset.mem_erase, ne_eq, Finset.mem_filter, Finset.mem_univ, true_and]

theorem picsOf_mask (ofSecond : Bool) (value : BitVec 8) :
    (picsOf q firstIsr secondIsr).write (.outb (if ofSecond then pic2Data else pic1Data) value) =
      picsOf (q.apply (.mask ofSecond value)) firstIsr secondIsr := by
  cases ofSecond <;> rfl

/-- The processor takes a line: its chip has it in service, and the first chip its cascade. -/
def servedFirst : IrqLine → Finset (Fin 8)
  | .first k => {k}
  | .second _ => {cascadeLine}

def servedSecond : IrqLine → Finset (Fin 8)
  | .first _ => ∅
  | .second k => {k}

/-- With nothing in service a chip offers its first request that is not masked. -/
theorem offer_idle {p : Pic} (idle : p.isr = ∅) (requests : Finset (Fin 8)) :
    p.offer requests = (List.finRange 8).find? fun k => k ∈ requests ∧ p.imr.getLsbD k = false := by
  have free (k : Fin 8) : decide (∀ j ≤ k, j ∉ p.isr) = true :=
    decide_eq_true fun j _ => idle ▸ Finset.notMem_empty j
  rw [Pic.offer]
  cases (List.finRange 8).find? fun k => k ∈ requests ∧ p.imr.getLsbD k = false with
  | none => rfl
  | some k => rw [Option.filter_some, if_pos (free k)]

/-- The lines at an input of the first chip. -/
def linesAt (k : Fin 8) : List IrqLine := if k = cascadeLine then (List.finRange 8).map .second else [.first k]

/-- The first that waits at an input of the first chip. -/
def LineQueue.nextAt (q : LineQueue) (k : Fin 8) : Option IrqLine :=
  (linesAt k).find? fun l => decide (l ∈ q.waiting) && q.opens l

theorem nextAt_first {k : Fin 8} (direct : k ≠ cascadeLine) :
    q.nextAt k = if .first k ∈ q.waiting ∧ q.firstMask.getLsbD k = false then some (.first k) else none := by
  rw [LineQueue.nextAt, linesAt, if_neg direct, List.find?_singleton, LineQueue.opens]
  simp only [Bool.and_eq_true, decide_eq_true_eq, Bool.not_eq_true']

theorem nextAt_cascade :
    q.nextAt cascadeLine =
      if q.firstMask.getLsbD cascadeLine = false then
        ((picsOf q firstIsr ∅).second.offer (picsOf q firstIsr ∅).second.irr).map .second
      else none := by
  rw [LineQueue.nextAt, linesAt, if_pos rfl, List.find?_map, offer_idle rfl]
  split
  · next opened =>
    congr 2
    funext k
    simp only [Function.comp_apply, LineQueue.opens, opened, picsOf, Finset.mem_filter, Finset.mem_univ, true_and,
      Bool.not_false, Bool.true_and, Bool.decide_and]
    cases q.secondMask.getLsbD k <;> rfl
  · next masked =>
    rw [Bool.not_eq_false] at masked
    rw [List.find?_eq_none.mpr, Option.map_none]
    intro k _
    simp only [Function.comp_apply, LineQueue.opens, masked, Bool.not_true, Bool.false_and, Bool.and_false,
      Bool.false_eq_true, not_false_eq_true]

/-- The first chip's requests are where something waits. -/
theorem requests_iff (unwired : .first cascadeLine ∉ q.waiting) (k : Fin 8) :
    (k ∈ (picsOf q firstIsr ∅).requests ∧ q.firstMask.getLsbD k = false) ↔ (q.nextAt k).isSome := by
  have latched (k : Fin 8) : k ∈ (picsOf q firstIsr ∅).first.irr ↔ .first k ∈ q.waiting := by
    rw [picsOf, Finset.mem_filter_univ]
  rw [Pics.requests]
  rcases em (k = cascadeLine) with rfl | direct
  · rw [@nextAt_cascade _ firstIsr]
    cases (picsOf q firstIsr ∅).second.offer (picsOf q firstIsr ∅).second.irr with
    | none =>
      rw [Option.isSome_none, if_neg Bool.false_ne_true, latched, Option.map_none, ite_self]
      exact iff_of_false (fun both => unwired both.1) Bool.false_ne_true
    | some j =>
      rw [Option.isSome_some, if_pos rfl, Option.map_some]
      split
      · next opened => exact iff_of_true ⟨Finset.mem_insert_self _ _, opened⟩ rfl
      · next masked => exact iff_of_false (fun both => masked both.2) Bool.false_ne_true
  · have others : k ∈ (if ((picsOf q firstIsr ∅).second.offer (picsOf q firstIsr ∅).second.irr).isSome then
        insert cascadeLine (picsOf q firstIsr ∅).first.irr else (picsOf q firstIsr ∅).first.irr) ↔
        .first k ∈ q.waiting := by
      rw [← latched]
      split
      · rw [Finset.mem_insert, or_iff_right direct]
      · rfl
    rw [nextAt_first direct, others]
    split
    · next asks => exact iff_of_true asks rfl
    · next silent => exact iff_of_false silent Bool.false_ne_true

theorem next_eq (q : LineQueue) : q.next = (List.finRange 8).findSome? q.nextAt := List.find?_flatMap

/-- A search through parts, by the first part in which something is found. -/
theorem findSome_eq_bind {α β : Type*} {f : α → Option β} {p : α → Bool} (found : ∀ a, p a = (f a).isSome)
    (xs : List α) : xs.findSome? f = (xs.find? p).bind f := by
  induction xs with
  | nil => rfl
  | cons a rest ih =>
    rw [List.findSome?_cons, List.find?_cons, found a]
    cases here : f a with
    | none => exact ih
    | some b => exact here.symm

/-- What the first chip offers is the input where the next line is. -/
theorem offer_next (unwired : .first cascadeLine ∉ q.waiting) :
    q.next = ((picsOf q ∅ ∅).first.offer (picsOf q ∅ ∅).requests).bind q.nextAt := by
  rw [next_eq, offer_idle rfl]
  refine findSome_eq_bind (fun k => ?_) _
  rw [Bool.eq_iff_iff, decide_eq_true_iff]
  exact requests_iff unwired k

theorem serve_idle {p : Pic} (idle : p.isr = ∅) (normal : p.mode.getLsbD 1 = false) (k : Fin 8) :
    p.serve k = { p with irr := p.irr.erase k, isr := {k} } := by
  rw [Pic.serve, normal, if_neg Bool.false_ne_true, idle, insert_empty_eq]

/-- The mode that `pic_remap` sets: no automatic end of interrupt. -/
theorem normalMode : (1 : BitVec 8).getLsbD 1 = false := by decide

/-- The processor takes a line of the first chip. -/
theorem picsOf_serve_first (k : Fin 8) :
    Pics.mk ((picsOf q ∅ ∅).first.serve k) (picsOf q ∅ ∅).second = picsOf (q.apply (.interrupt (.first k))) {k} ∅ := by
  rw [serve_idle rfl normalMode]
  exact congrArg (fun p : Pics => Pics.mk { p.first with isr := {k} } p.second)
    (@picsOf_withdraw q ∅ ∅ (.first k))

/-- A line of the second chip is in service at both. -/
theorem picsOf_serve_second (unwired : .first cascadeLine ∉ q.waiting) (k : Fin 8) :
    Pics.mk ((picsOf q ∅ ∅).first.serve cascadeLine) ((picsOf q ∅ ∅).second.serve k) =
      picsOf (q.apply (.interrupt (.second k))) {cascadeLine} {k} := by
  have silent : cascadeLine ∉ (picsOf q ∅ ∅).first.irr := by rwa [picsOf, Finset.mem_filter_univ]
  rw [serve_idle rfl normalMode, serve_idle rfl normalMode, Finset.erase_eq_of_notMem silent]
  exact congrArg (fun p : Pics => Pics.mk { p.first with isr := {cascadeLine} } { p.second with isr := {k} })
    (@picsOf_withdraw q ∅ ∅ (.second k))

theorem picsOf_cascaded : (picsOf q firstIsr secondIsr).Cascaded := by
  have told : (0x04 : BitVec 8).getLsbD cascadeLine = true ∧ (0x02 : BitVec 8) &&& 7 = BitVec.ofNat 8 cascadeLine := by
    decide
  exact told

/-- With nothing in service, the processor gets the vector of the line that is next, and takes it. -/
theorem acknowledge_eq (unwired : .first cascadeLine ∉ q.waiting) :
    (picsOf q ∅ ∅).acknowledge =
      q.next.map fun l => (lineVector l, picsOf (q.apply (.interrupt l)) (servedFirst l) (servedSecond l)) := by
  rw [offer_next unwired, Pics.acknowledge]
  cases offered : (picsOf q ∅ ∅).first.offer (picsOf q ∅ ∅).requests with
  | none => rfl
  | some k =>
    rw [offer_idle rfl] at offered
    have chosen := List.find?_some offered
    rw [decide_eq_true_iff] at chosen
    have asks := (requests_iff unwired k).mp chosen
    rw [Option.bind_some]
    dsimp only
    rcases em (k = cascadeLine) with rfl | direct
    · have cascaded : (picsOf q ∅ ∅).Cascaded := picsOf_cascaded
      rw [@nextAt_cascade _ ∅] at asks ⊢
      rw [if_pos ⟨rfl, cascaded⟩]
      cases behind : (picsOf q ∅ ∅).second.offer (picsOf q ∅ ∅).second.irr with
      | none =>
        rw [behind, Option.map_none, ite_self] at asks
        cases asks
      | some j =>
        rw [behind, Option.map_some] at asks
        split at asks
        · next opened =>
          rw [if_pos opened]
          exact congrArg (fun p => some (lineVector (.second j), p)) (picsOf_serve_second unwired j)
        · cases asks
    · rw [nextAt_first direct] at asks ⊢
      split at asks
      · next waits =>
        rw [if_pos waits, if_neg fun both => direct both.1]
        exact congrArg (fun p => some (lineVector (.first k), p)) (picsOf_serve_first k)
      · cases asks

/-- A request that is gone brings the first chip's cascade into service, or nothing. -/
theorem picsOf_spurious (unwired : .first cascadeLine ∉ q.waiting) :
    (picsOf q ∅ ∅).spurious false = (0x27, picsOf q ∅ ∅) ∧
      (picsOf q ∅ ∅).spurious true = (0x2F, picsOf q {cascadeLine} ∅) := by
  have silent : cascadeLine ∉ (picsOf q ∅ ∅).first.irr := by rwa [picsOf, Finset.mem_filter_univ]
  refine ⟨rfl, ?_⟩
  rw [Pics.spurious, serve_idle rfl normalMode, Finset.erase_eq_of_notMem silent]
  rfl

/-- One end of interrupt is enough for one line in service. -/
theorem endOfInterrupt_eq {p : Pic} {k : Fin 8} (one : p.isr ⊆ {k}) : p.endOfInterrupt = { p with isr := ∅ } := by
  rw [Pic.endOfInterrupt]
  cases found : (List.finRange 8).find? fun k => k ∈ p.isr with
  | none =>
    have empty : p.isr = ∅ := by
      refine Finset.eq_empty_of_forall_notMem fun j inside => ?_
      exact List.find?_eq_none.mp found j (List.mem_finRange j) (decide_eq_true inside)
    dsimp only
    rw [← empty]
  | some j =>
    have inside := List.find?_some found
    rw [decide_eq_true_iff] at inside
    have whole : p.isr = {j} := by
      obtain rfl := Finset.mem_singleton.mp (one inside)
      exact Finset.Subset.antisymm one (Finset.singleton_subset_iff.mpr inside)
    dsimp only
    rw [whole, Finset.erase_singleton]

end Chips

/-! ## Runs -/

/-- What is in service while a vector is handled: at most one line of each chip, and of the second only if
`irq_dispatch` tells it too. -/
def InService : Option (BitVec 8) → Finset (Fin 8) → Finset (Fin 8) → Prop
  | none, firstIsr, secondIsr => firstIsr = ∅ ∧ secondIsr = ∅
  | some v, firstIsr, secondIsr =>
    (∃ k, firstIsr ⊆ {k}) ∧
      ((∃ k, secondIsr ⊆ {k}) ∧ irqEoi v = [.outb pic2Command 0x20, .outb pic1Command 0x20] ∨
        secondIsr = ∅ ∧ irqEoi v = [.outb pic1Command 0x20])

theorem irqEoi_line (l : IrqLine) :
    irqEoi (lineVector l) =
      (if servedSecond l = ∅ then [] else [.outb pic2Command 0x20]) ++ [.outb pic1Command 0x20] := by
  cases l with
  | first k => revert k; decide
  | second k => revert k; decide

theorem irqEoi_spurious :
    irqEoi 0x27 = [.outb pic1Command 0x20] ∧
      irqEoi 0x2F = [.outb pic2Command 0x20, .outb pic1Command 0x20] := by
  decide

theorem inService_line (l : IrqLine) : InService (some (lineVector l)) (servedFirst l) (servedSecond l) := by
  have eoi := irqEoi_line l
  cases l with
  | first k =>
    rw [servedSecond, if_pos rfl, List.nil_append] at eoi
    exact ⟨⟨k, Finset.Subset.refl _⟩, Or.inr ⟨rfl, eoi⟩⟩
  | second k =>
    rw [servedSecond, if_neg (Finset.singleton_ne_empty k)] at eoi
    exact ⟨⟨cascadeLine, Finset.Subset.refl _⟩, Or.inl ⟨⟨k, Finset.Subset.refl _⟩, eoi⟩⟩

/-- What `irq_dispatch` writes for a vector ends what is in service for it. -/
theorem writes_irqEoi {q : LineQueue} {firstIsr secondIsr : Finset (Fin 8)} {v : BitVec 8}
    (served : InService (some v) firstIsr secondIsr) :
    (picsOf q firstIsr secondIsr).writes (irqEoi v) = picsOf q ∅ ∅ := by
  have endFirst {k : Fin 8} (one : firstIsr ⊆ {k}) (secondIsr : Finset (Fin 8)) :
      (picsOf q firstIsr secondIsr).write (.outb pic1Command 0x20) = picsOf q ∅ secondIsr := 
    congrArg (fun first => Pics.mk first (picsOf q ∅ secondIsr).second)
      (endOfInterrupt_eq (p := (picsOf q firstIsr secondIsr).first) one)
  have endSecond {k : Fin 8} (one : secondIsr ⊆ {k}) :
      (picsOf q firstIsr secondIsr).write (.outb pic2Command 0x20) = picsOf q firstIsr ∅ :=
    congrArg (Pics.mk (picsOf q firstIsr ∅).first)
      (endOfInterrupt_eq (p := (picsOf q firstIsr secondIsr).second) one)
  obtain ⟨⟨k, first⟩, ⟨⟨j, second⟩, eoi⟩ | ⟨rfl, eoi⟩⟩ := served
  · rw [eoi, Pics.writes, List.foldl_cons, List.foldl_cons, List.foldl_nil, endSecond second, endFirst first]
  · rw [eoi, Pics.writes, List.foldl_cons, List.foldl_nil, endFirst first]

theorem lineVector_injective : Function.Injective lineVector := by
  rintro (k | k) (j | j) same
  · revert k j; decide
  · revert k j; decide
  · revert k j; decide
  · revert k j; decide

/-- The chips have the requests and the masks of the queue. -/
structure LineInv {H σ : Type*} (q : LineQueue) (s : LineSystem H σ) : Prop where
  unwired : .first cascadeLine ∉ q.waiting
  chips : ∃ firstIsr secondIsr, s.pics = picsOf q firstIsr secondIsr ∧ InService s.handling firstIsr secondIsr

section Runs

variable {H σ : Type*} {run : H → σ → σ × List DeviceWrite} {q : LineQueue} {s s' : LineSystem H σ} {e : LineEvent}

theorem LineInv.idle (inv : LineInv q s) (idle : s.handling = none) : s.pics = picsOf q ∅ ∅ := by
  obtain ⟨_, _, chips, served⟩ := inv.chips
  rw [idle] at served
  obtain ⟨rfl, rfl⟩ := served
  exact chips

/-- The writes of `irq_dispatch`, where the handlers leave the controllers alone. -/
theorem dispatch_pics (quiet : ∀ h w p, Pics.writes p (run h w).2 = p) (s : LineSystem H σ) (v : BitVec 8) :
    (s.dispatch run v).pics = s.pics.writes (irqEoi v) := by
  have vector : (v.setWidth 64).setWidth 8 = v := by
    rw [BitVec.setWidth_setWidth_of_le _ (by decide), BitVec.setWidth_eq]
  rw [LineSystem.dispatch]
  cases handler : (s.irq.table ((v.setWidth 64).setWidth 8)).handler with
  | none =>
    rw [irqDispatch_unhandled handler, vector, List.drop_left]
  | some h =>
    dsimp only
    rw [(irqDispatch_handled handler).2, vector, List.append_assoc, List.drop_left, Pics.writes, List.foldl_append]
    exact quiet h _ _

/-- One step, and an interrupt is the line that was next. -/
theorem LineInv.step (quiet : ∀ h w p, Pics.writes p (run h w).2 = p) (inv : LineInv q s) (step : LineStep run s e s') :
    LineInv (q.apply e) s' ∧ ∀ l, e = .interrupt l → q.next = some l := by
  obtain ⟨unwired, firstIsr, secondIsr, chips, served⟩ := id inv
  cases step with
  | @request l device =>
    refine ⟨⟨?_, firstIsr, secondIsr, ?_, served⟩, fun _ same => by cases same⟩
    · rw [LineQueue.apply, Finset.mem_insert]
      exact not_or.mpr ⟨Ne.symm device, unwired⟩
    · rw [chips, picsOf_request]
  | withdraw l =>
    refine ⟨⟨?_, firstIsr, secondIsr, ?_, served⟩, fun _ same => by cases same⟩
    · exact fun member => unwired (Finset.mem_of_mem_erase member)
    · rw [chips, picsOf_withdraw]
  | mask ofSecond value =>
    refine ⟨⟨?_, firstIsr, secondIsr, ?_, served⟩, fun _ same => by cases same⟩
    · cases ofSecond <;> exact unwired
    · rw [chips, picsOf_mask]
  | @interrupt l pics idle taken =>
    rw [inv.idle idle, acknowledge_eq unwired] at taken
    obtain ⟨l', next, same⟩ := Option.map_eq_some_iff.mp taken
    obtain ⟨vector, rfl⟩ := Prod.mk.inj same
    obtain rfl := lineVector_injective vector
    refine ⟨⟨?_, servedFirst l', servedSecond l', rfl, inService_line l'⟩, ?_⟩
    · exact fun member => unwired (Finset.mem_of_mem_erase member)
    · rintro l ⟨⟩
      exact next
  | spurious bySecond idle =>
    obtain ⟨byFirst, asSecond⟩ := picsOf_spurious unwired
    rw [inv.idle idle]
    refine ⟨?_, fun _ same => by cases same⟩
    cases bySecond with
    | false =>
      rw [byFirst]
      exact ⟨unwired, ∅, ∅, rfl, ⟨0, Finset.empty_subset _⟩, Or.inr ⟨rfl, irqEoi_spurious.1⟩⟩
    | true =>
      rw [asSecond]
      exact ⟨unwired, {cascadeLine}, ∅, rfl, ⟨_, Finset.Subset.refl _⟩,
        Or.inl ⟨⟨0, Finset.empty_subset _⟩, irqEoi_spurious.2⟩⟩
  | @dispatch v handled =>
    rw [handled] at served
    refine ⟨⟨unwired, ∅, ∅, ?_, rfl, rfl⟩, fun _ same => by cases same⟩
    rw [dispatch_pics quiet, chips, writes_irqEoi served]
    rfl

/-- Whatever state the firmware left the chips in, with nothing in service: after `pic_remap` and any requests,
interrupts, spurious ones among them, and changes of the masks, the processor is offered the vector of the line that
is next in the queue whenever no interrupt is handled, and nothing is in service then. Every interrupt that it took
was the line that was next. -/
theorem lines_are_one_queue (quiet : ∀ h w p, Pics.writes p (run h w).2 = p) {p : Pics} (first : p.first.isr = ∅)
    (second : p.second.isr = ∅) {irq : IrqState H σ} {es : List LineEvent}
    (path : Path (LineStep run) ⟨irq, p.writes picRemap, none⟩ es s) :
    (s.handling = none →
      s.pics.acknowledge.map Prod.fst = (es.foldl LineQueue.apply {}).next.map lineVector ∧
        s.pics.first.isr = ∅ ∧ s.pics.second.isr = ∅) ∧
      ∀ done l, done ++ [.interrupt l] <+: es → (done.foldl LineQueue.apply {}).next = some l := by
  obtain ⟨inv, served⟩ := path.snoc_induction (fun es s =>
    LineInv (es.foldl LineQueue.apply {}) s ∧
      ∀ done l, done ++ [.interrupt l] <+: es → (done.foldl LineQueue.apply {}).next = some l)
    ⟨⟨Finset.notMem_empty _, ∅, ∅, picRemap_writes first second, rfl, rfl⟩,
      fun done l before => absurd (List.prefix_nil.mp before) (List.concat_ne_nil _ _)⟩
    (by
      rintro es mid e t - ⟨inv, served⟩ step
      obtain ⟨kept, next⟩ := inv.step quiet step
      rw [List.foldl_append, List.foldl_cons, List.foldl_nil]
      refine ⟨kept, fun done l before => ?_⟩
      rcases List.prefix_concat_iff.mp before with whole | earlier
      · obtain ⟨rfl, same⟩ := List.append_inj' whole rfl
        exact next l (List.cons.inj same).1.symm
      · exact served done l earlier)
  refine ⟨fun idle => ?_, served⟩
  rw [inv.idle idle, acknowledge_eq inv.unwired, Option.map_map]
  exact ⟨rfl, rfl, rfl⟩

end Runs

/-- The handlers of the kernel leave the controllers alone. -/
theorem kernelHandlers_quiet (h : KernelHandler) (w : KernelWorld) (p : Pics) : p.writes (h.run w).2 = p := by
  cases h <;> rfl

/-- A handler that counts. -/
def sampleTimer (_ : Unit) (n : ℕ) : ℕ × List DeviceWrite := (n + 1, [])

/-- The keyboard asks before the timer, and the timer is first. Then comes a request that is gone. -/
theorem lines_are_one_queue_sample :
    ∃ s : LineSystem Unit ℕ, s.handling = none ∧ s.pics.acknowledge.map Prod.fst = some 33 := by
  have path : Path (LineStep sampleTimer)
      ⟨⟨fun _ => {}, [], 0⟩, ({ first := { irr := {7} } } : Pics).writes picRemap, none⟩
      [.mask false 0xFC, .request (.first 1), .request (.first 0), .interrupt (.first 0), .dispatch, .spurious false,
        .dispatch] _ :=
    .cons (.mask _ _ _) (.cons (.request _ (by decide)) (.cons (.request _ (by decide)) (.cons (.interrupt rfl rfl)
      (.cons (.dispatch rfl) (.cons (.spurious _ rfl) (.cons (.dispatch rfl) (.nil _)))))))
  obtain ⟨offered, _⟩ := lines_are_one_queue (fun _ _ _ => rfl) rfl rfl path
  exact ⟨_, rfl, (offered rfl).1.trans (by decide)⟩

end RaryOS.Soundness
