import RaryOS.Core.CycleRing
import RaryOS.Core.Path
import RaryOS.Model.XhciRings

/-! # A driver and a controller on one ring

The two functions that fill a ring differ in the TRB and in the stores to the link. Both are ring
drivers: a call writes the link if the lap is over, and then one TRB, each with its cycle bit last.
The invariant of a ring driver against the controller is `RingInv`; every single store and every step
of the controller keeps it.
-/

namespace RaryOS.Model

open RaryOS.Core

/-! ## Stores -/

/-- Stores to one slot of which only the last one, with value `control`, writes the cycle bit. -/
def Batch (slot control : ℕ) (stores : List TrbStore) : Prop :=
  ∃ init, stores = init ++ [.control slot control] ∧ ∀ st ∈ init, st.slot = slot ∧ st.isControl = false

theorem trbStores_batch (slot : ℕ) (t : Trb) : Batch slot t.control (trbStores slot t) := by
  refine ⟨[.parameter slot t.parameter, .status slot t.status], rfl, fun st member => ?_⟩
  simp only [List.mem_cons, List.not_mem_nil, or_false] at member
  rcases member with rfl | rfl <;> exact ⟨rfl, rfl⟩

/-- The next store of a batch is the last one, or leaves the cycle bit alone. -/
theorem Batch.cases {slot control : ℕ} {st : TrbStore} {rest : List TrbStore}
    (batch : Batch slot control (st :: rest)) :
    (st = .control slot control ∧ rest = []) ∨
      (st.slot = slot ∧ st.isControl = false ∧ Batch slot control rest) := by
  obtain ⟨init, split, parts⟩ := batch
  cases init with
  | nil =>
    obtain ⟨rfl, rfl⟩ := List.cons.inj split
    exact Or.inl ⟨rfl, rfl⟩
  | cons first init =>
    obtain ⟨rfl, rfl⟩ := List.cons.inj split
    obtain ⟨here, bit⟩ := parts _ List.mem_cons_self
    exact Or.inr ⟨here, bit, init, rfl, fun st member => parts st (List.mem_cons_of_mem _ member)⟩

theorem Batch.ne_nil {slot control : ℕ} {stores : List TrbStore} (batch : Batch slot control stores) :
    stores ≠ [] := by
  obtain ⟨init, rfl, _⟩ := batch
  exact List.append_ne_nil_of_right_ne_nil _ (List.cons_ne_nil _ _)

theorem TrbStore.write_control {st : TrbStore} (other : st.isControl = false) (t : Trb) :
    (st.write t).control = t.control := by
  cases st with
  | parameter => rfl
  | status => rfl
  | control => cases other

theorem TrbStore.apply_other (st : TrbStore) (ring : ℕ → Trb) {s : ℕ} (other : s ≠ st.slot) :
    st.apply ring s = ring s := Function.update_of_ne other _ _

theorem TrbStore.apply_same (st : TrbStore) (ring : ℕ → Trb) :
    st.apply ring st.slot = st.write (ring st.slot) := Function.update_self _ _ _

theorem applyStores_trbStores (slot : ℕ) (t : Trb) (ring : ℕ → Trb) :
    applyStores (trbStores slot t) ring slot = t := by
  simp only [applyStores, trbStores, List.foldl_cons, List.foldl_nil, TrbStore.apply, TrbStore.slot,
    TrbStore.write, Function.update_self]

/-- Stores to other slots leave a slot alone. -/
theorem applyStores_of_ne {stores : List TrbStore} {s : ℕ} (others : ∀ st ∈ stores, st.slot ≠ s) (ring : ℕ → Trb) :
    applyStores stores ring s = ring s := by
  induction stores generalizing ring with
  | nil => rfl
  | cons st rest ih =>
    apply (ih (fun st member => others st (List.mem_cons_of_mem _ member)) (st.apply ring)).trans
    exact st.apply_other ring (others st List.mem_cons_self).symm

theorem applyStores_append (first second : List TrbStore) (ring : ℕ → Trb) :
    applyStores (first ++ second) ring = applyStores second (applyStores first ring) := List.foldl_append

theorem Batch.slot_eq {slot control : ℕ} {stores : List TrbStore} (batch : Batch slot control stores) :
    ∀ st ∈ stores, st.slot = slot := by
  obtain ⟨init, rfl, parts⟩ := batch
  intro st member
  rcases List.mem_append.mp member with early | last
  · exact (parts st early).1
  · rw [List.mem_singleton.mp last]
    rfl

/-- A batch leaves the other slots alone. -/
theorem Batch.applyStores_other {slot control s : ℕ} {stores : List TrbStore} (batch : Batch slot control stores)
    (other : s ≠ slot) (ring : ℕ → Trb) : applyStores stores ring s = ring s :=
  applyStores_of_ne (fun st member => (batch.slot_eq st member).trans_ne other.symm) ring

theorem Batch.applyStores_control {slot control : ℕ} {stores : List TrbStore} (batch : Batch slot control stores)
    (ring : ℕ → Trb) : (applyStores stores ring slot).control = control := by
  obtain ⟨init, rfl, _⟩ := batch
  rw [applyStores_append]
  exact congrArg Trb.control ((TrbStore.control slot control).apply_same (applyStores init ring))

/-! ## Ring drivers -/

/-- A function that fills a ring: what one call stores. `request` is the TRB that a call asks for,
without the cycle bit. -/
structure RingDriver (κ : Type*) where
  call : RingProducer → κ → List TrbStore × RingProducer
  request : κ → Trb
  even : ∀ k, (request k).control % 2 = 0
  notLink : ∀ k, (request k).type ≠ xhciTrbLink
  inside : ∀ p k, p.cycle ≤ 1 → p.idx < 255 →
    call p k = (trbStores p.idx ((request k).withCycle p.cycle), ⟨p.idx + 1, p.cycle⟩)
  wraps : ∀ p k, p.cycle ≤ 1 → p.idx = 255 → ∃ link, Batch 255 (linkControl p.cycle) link ∧
    call p k = (link ++ trbStores 0 ((request k).withCycle (1 - p.cycle)), ⟨1, 1 - p.cycle⟩)

/-- The arguments of a `submit_cmd`, as its callers pass them: no command has the type of a link. -/
structure Command where
  type : ℕ
  param : ℕ
  status : ℕ := 0
  slotId : ℕ
  notLink : type % 64 ≠ xhciTrbLink

/-- The arguments of a `queue_interrupt_in_async`: the fields of the driver that it reads. -/
structure InterruptIn where
  intrBufPhys : ℕ
  hidEpMps : ℕ

theorem xor_one_eq {c : ℕ} (bit : c ≤ 1) : c ^^^ 1 = 1 - c := by
  rcases Nat.le_one_iff_eq_zero_or_eq_one.mp bit with rfl | rfl <;> rfl

/-- The control word of a command, apart from the cycle bit, is a multiple of 1024. -/
theorem command_control (type slotId : ℕ) {cycle : ℕ} (bit : cycle ≤ 1) :
    ((type <<< 10) ||| (slotId <<< 24) ||| cycle) % 2 ^ 32 =
        ((type <<< 10) ||| (slotId <<< 24)) % 2 ^ 32 + cycle ∧
      ((type <<< 10) ||| (slotId <<< 24)) % 2 ^ 32 % 1024 = 0 ∧
      ((type <<< 10) ||| (slotId <<< 24)) % 2 ^ 32 / 2 ^ 10 % 64 = type % 64 := by
  have shift : (type <<< 10) ||| (slotId <<< 24) = 2 ^ 10 * (type ||| slotId <<< 14) := by
    rw [Nat.mul_comm, ← Nat.shiftLeft_eq, Nat.shiftLeft_or_distrib, ← Nat.shiftLeft_add]
  have low : (type ||| slotId <<< 14) % 2 ^ 6 = type % 2 ^ 6 := by
    rw [Nat.or_mod_two_pow, Nat.shiftLeft_eq, show slotId * 2 ^ 14 % 2 ^ 6 = 0 by omega, Nat.or_zero]
  rw [shift, ← Nat.two_pow_add_eq_or_of_lt (by omega : cycle < 2 ^ 10)]
  omega

theorem Trb.withCycle_of_even {t : Trb} (even : t.control % 2 = 0) (cycle : ℕ) :
    t.withCycle cycle = { t with control := t.control + cycle } := by
  rw [Trb.withCycle, show t.control / 2 * 2 = t.control by omega]

theorem Trb.withCycle_cycle (t : Trb) {cycle : ℕ} (bit : cycle ≤ 1) : (t.withCycle cycle).cycle = cycle := by
  simp only [Trb.cycle, Trb.withCycle]
  omega

theorem Trb.withCycle_type (t : Trb) {cycle : ℕ} (bit : cycle ≤ 1) : (t.withCycle cycle).type = t.type := by
  simp only [Trb.type, Trb.withCycle]
  omega

theorem Trb.body_withCycle (t : Trb) {cycle : ℕ} (bit : cycle ≤ 1) : (t.withCycle cycle).body = t.body := by
  simp only [Trb.body, Trb.withCycle]
  congr 1
  omega

theorem Trb.withCycle_body {t : Trb} (even : t.control % 2 = 0) {cycle : ℕ} (bit : cycle ≤ 1) :
    (t.withCycle cycle).body = t := by
  obtain ⟨parameter, status, control⟩ := t
  simp only [Trb.body, Trb.withCycle] at even ⊢
  congr 1
  omega

def submitCmdDriver : RingDriver Command where
  call p k := submitCmd p k.type k.param k.status k.slotId
  request k :=
    { parameter := k.param, status := k.status
      control := ((k.type <<< 10) ||| (k.slotId <<< 24)) % 2 ^ 32 }
  even k := by
    have := (command_control k.type k.slotId (Nat.zero_le 1)).2.1
    simp only
    omega
  notLink k := by
    have := (command_control k.type k.slotId (Nat.zero_le 1)).2.2
    rw [Trb.type, this]
    exact k.notLink
  inside p k bit bound := by
    obtain ⟨word, multiple, _⟩ := command_control k.type k.slotId bit
    have other : ¬p.idx = ringTrbs - 1 := by
      simp only [ringTrbs]
      omega
    rw [Trb.withCycle_of_even (by simp only; omega)]
    simp only [submitCmd, if_neg other, List.nil_append, word, trbStores]
  wraps p k bit last := by
    obtain ⟨word, multiple, _⟩ := command_control k.type k.slotId (show 1 - p.cycle ≤ 1 by omega)
    have here : p.idx = ringTrbs - 1 := last
    refine ⟨[.control 255 (linkControl p.cycle)], ⟨[], rfl, nofun⟩, ?_⟩
    rw [Trb.withCycle_of_even (by simp only; omega)]
    simp only [submitCmd, if_pos here, xor_one_eq bit, word, trbStores]
    rfl

/-- The TRB of `queue_interrupt_in_async`, a normal one with an interrupt on completion. -/
def interruptTrb (k : InterruptIn) : Trb where
  parameter := k.intrBufPhys
  status := k.hidEpMps
  control := 1056

theorem interrupt_control {cycle : ℕ} (bit : cycle ≤ 1) :
    (xhciTrbNormal <<< 10) ||| (1 <<< 5) ||| cycle = 1056 + cycle := by
  rcases Nat.le_one_iff_eq_zero_or_eq_one.mp bit with rfl | rfl <;> decide

def queueInterruptInDriver (ringPhys : ℕ) : RingDriver InterruptIn where
  call p k := queueInterruptIn ringPhys k.intrBufPhys k.hidEpMps p
  request := interruptTrb
  even _ := by simp only [interruptTrb]
  notLink _ := by simp only [interruptTrb, Trb.type, xhciTrbLink]; decide
  inside p k bit bound := by
    have other : ¬ringTrbs - 1 ≤ p.idx := by
      simp only [ringTrbs]
      omega
    rw [Trb.withCycle_of_even (by simp only [interruptTrb])]
    simp only [queueInterruptIn, if_neg other, List.nil_append, interrupt_control bit, trbStores, interruptTrb]
  wraps p k bit last := by
    have here : ringTrbs - 1 ≤ p.idx := last.ge
    refine ⟨[.parameter 255 ringPhys, .control 255 (linkControl p.cycle)],
      ⟨[.parameter 255 ringPhys], rfl, fun st member => ?_⟩, ?_⟩
    · rw [List.mem_singleton.mp member]
      exact ⟨rfl, rfl⟩
    · rw [Trb.withCycle_of_even (by simp only [interruptTrb])]
      simp only [queueInterruptIn, if_pos here, xor_one_eq bit,
        interrupt_control (show 1 - p.cycle ≤ 1 by omega), trbStores, interruptTrb]
      rfl

theorem linkControl_eq {cycle : ℕ} (bit : cycle ≤ 1) : linkControl cycle = 6146 + cycle := by
  rcases Nat.le_one_iff_eq_zero_or_eq_one.mp bit with rfl | rfl <;> decide

theorem linkControl_fields {cycle : ℕ} (bit : cycle ≤ 1) (parameter status : ℕ) :
    (Trb.mk parameter status (linkControl cycle)).cycle = cycle ∧
      (Trb.mk parameter status (linkControl cycle)).type = xhciTrbLink ∧
      (Trb.mk parameter status (linkControl cycle)).toggleCycle = true := by
  simp only [Trb.cycle, Trb.type, Trb.toggleCycle, linkControl_eq bit, xhciTrbLink, decide_eq_true_eq]
  omega

/-! ## The system -/

/-- The ring in memory, the driver with the stores that are left of its call, and the controller.
`submitted` are the TRBs that the calls asked for, `executed` those that the controller read. -/
structure RingSystem where
  ring : ℕ → Trb
  producer : RingProducer := {}
  pending : List TrbStore := []
  consumer : RingConsumer := {}
  submitted : List Trb := []
  executed : List Trb := []

inductive RingEvent (κ : Type*) where
  | submit (call : κ)
  | store
  | controller

/-- One step: the driver begins a call while at most 254 TRBs are unconsumed, or makes its next store,
or the controller makes a step. -/
inductive RingStep {κ : Type*} (driver : RingDriver κ) : RingSystem → RingEvent κ → RingSystem → Prop
  | submit {s : RingSystem} (k : κ) : s.pending = [] →
      s.submitted.length ≤ s.executed.length + 254 →
      RingStep driver s (.submit k)
        { s with
          pending := (driver.call s.producer k).1
          producer := (driver.call s.producer k).2
          submitted := s.submitted ++ [driver.request k] }
  | store {s : RingSystem} {st : TrbStore} {rest : List TrbStore} : s.pending = st :: rest →
      RingStep driver s .store { s with ring := st.apply s.ring, pending := rest }
  | controller {s : RingSystem} {consumer : RingConsumer} {done : Option Trb} :
      s.consumer.step s.ring = some (consumer, done) →
      RingStep driver s .controller
        { s with consumer := consumer, executed := s.executed ++ done.toList }

/-- The link after `laps` rewrites; the setup leaves it blank or ready. -/
def LinkAt (laps : ℕ) (t : Trb) : Prop :=
  t.control = linkControl (laps % 2) ∨ laps = 0 ∧ (t.control = 0 ∨ t.control = linkControl 1)

/-- The TRB that a call is about to publish as the next item. -/
structure NextItem (s : RingSystem) (published : List Trb) (t : Trb) : Prop where
  cycle : t.cycle = cycleOf 255 published.length
  notLink : t.type ≠ xhciTrbLink
  submitted : s.submitted = published.map Trb.body ++ [t.body]

/-- How far the driver is: between calls, at the link, or at the TRB. -/
inductive Phase (s : RingSystem) (published : List Trb) : Prop
  | idle : s.pending = [] → s.submitted = published.map Trb.body →
      LinkAt ((published.length - 1) / 255) (s.ring 255) → Phase s published
  | linking {link : List TrbStore} {t : Trb} :
      s.pending = link ++ trbStores (published.length % 255) t →
      Batch 255 (linkControl (published.length / 255 % 2)) link →
      0 < published.length → published.length % 255 = 0 →
      LinkAt ((published.length - 1) / 255) (s.ring 255) → NextItem s published t → Phase s published
  | writing {t : Trb} : Batch (published.length % 255) t.control s.pending →
      applyStores s.pending s.ring (published.length % 255) = t →
      LinkAt (published.length / 255) (s.ring 255) → NextItem s published t → Phase s published

/-- The invariant: `published` are the TRBs whose last store was made. -/
structure RingInv (s : RingSystem) (published : List Trb) : Prop where
  ring : CycleRing 255 Trb.cycle s.ring published s.submitted.length
  notLink : ∀ t ∈ published, t.type ≠ xhciTrbLink
  producer : Cursor 255 s.producer.idx s.producer.cycle s.submitted.length
  started : s.submitted.length = 0 ∨ 0 < s.producer.idx
  consumer : Cursor 255 s.consumer.dequeue s.consumer.ccs s.executed.length
  executed : s.executed <+: published
  window : s.submitted.length ≤ s.executed.length + 255
  phase : Phase s published

/-! ## Steps -/

theorem LinkAt.congr {laps : ℕ} {t t' : Trb} (link : LinkAt laps t) (same : t'.control = t.control) :
    LinkAt laps t' := by
  rw [LinkAt, same]
  exact link

theorem RingProducer.bit {N idx cycle count : ℕ} (cursor : Cursor N idx cycle count) : cycle ≤ 1 := by
  obtain ⟨_, _, _, rfl⟩ := cursor
  omega

theorem snoc_prefix {α : Type*} {xs ys : List α} (le : xs <+: ys) (bound : xs.length < ys.length) :
    xs ++ [ys[xs.length]] <+: ys := by
  obtain ⟨rest, rfl⟩ := le
  cases rest with
  | nil => simp only [List.append_nil, lt_irrefl] at bound
  | cons next rest =>
    rw [List.getElem_append_right (le_refl _)]
    simp only [Nat.sub_self, List.getElem_cons_zero]
    exact ⟨rest, by rw [List.append_assoc, List.singleton_append]⟩

section Steps

variable {κ : Type*} {s : RingSystem} {published : List Trb}

/-- The phase does not depend on the controller. -/
theorem Phase.congr {t : RingSystem} (phase : Phase s published) (ring : t.ring = s.ring)
    (pending : t.pending = s.pending) (submitted : t.submitted = s.submitted) : Phase t published := by
  have next {u : Trb} (next : NextItem s published u) : NextItem t published u :=
    ⟨next.cycle, next.notLink, submitted.trans next.submitted⟩
  cases phase with
  | idle nil all link =>
    rw [← ring] at link
    exact .idle (pending.trans nil) (submitted.trans all) link
  | linking split batch started lapEnd link item =>
    rw [← ring] at link
    exact .linking (pending.trans split) batch started lapEnd link (next item)
  | writing batch result link item =>
    rw [← ring] at link result
    rw [← pending] at batch result
    exact .writing batch result link (next item)

namespace RingInv

/-- Between calls every TRB is published. -/
theorem idle_of_nil (inv : RingInv s published) (nil : s.pending = []) :
    s.submitted = published.map Trb.body ∧ LinkAt ((published.length - 1) / 255) (s.ring 255) := by
  cases inv.phase with
  | idle _ submitted link => exact ⟨submitted, link⟩
  | linking pending batch _ _ _ _ =>
    rw [nil] at pending
    exact absurd (List.append_eq_nil_iff.mp pending.symm).1 batch.ne_nil
  | writing batch _ _ _ => exact absurd nil batch.ne_nil

/-- A call begins. -/
theorem submit (driver : RingDriver κ) (k : κ) (inv : RingInv s published) (nil : s.pending = [])
    (room : s.submitted.length ≤ s.executed.length + 254) :
    RingInv
      { s with
        pending := (driver.call s.producer k).1
        producer := (driver.call s.producer k).2
        submitted := s.submitted ++ [driver.request k] }
      published := by
  obtain ⟨submitted, link⟩ := inv.idle_of_nil nil
  have count : s.submitted.length = published.length := by rw [submitted, List.length_map]
  have bit := RingProducer.bit inv.producer
  have total : (s.submitted ++ [driver.request k]).length = published.length + 1 := by
    rw [List.length_append, List.length_singleton, count]
  have producer := inv.producer
  rw [count] at producer
  have next {cycle : ℕ} (bit : cycle ≤ 1) (mark : cycleOf 255 published.length = cycle)
      (t : RingSystem) (same : t.submitted = s.submitted ++ [driver.request k]) :
      NextItem t published ((driver.request k).withCycle cycle) := by
    refine ⟨(Trb.withCycle_cycle _ bit).trans mark.symm, ?_, ?_⟩
    · rw [Trb.withCycle_type _ bit]
      exact driver.notLink k
    · rw [same, submitted, Trb.withCycle_body (driver.even k) bit]
  have ring := inv.ring.reserve (show s.submitted.length ≤ published.length + 1 by omega)
  rcases Nat.lt_or_ge s.producer.idx 255 with inside | last
  · obtain ⟨slot, mark⟩ := producer.slot inside
    rw [driver.inside _ k bit inside]
    refine ⟨total.symm ▸ ring, inv.notLink, total.symm ▸ producer.next inside, Or.inr (Nat.succ_pos _),
      inv.consumer, inv.executed, by simp only [total]; omega, ?_⟩
    rw [← slot]
    refine .writing (trbStores_batch _ _) (applyStores_trbStores _ _ _) ?_ (next bit mark _ rfl)
    have started := inv.started
    rwa [show published.length / 255 = (published.length - 1) / 255 by omega]
  · have ending : s.producer.idx = 255 := by
      obtain ⟨_, _, bound, _⟩ := producer
      omega
    obtain ⟨links, batch, call⟩ := driver.wraps _ k bit ending
    rw [ending] at producer
    have wrapped := producer.wrap
    obtain ⟨slot, mark⟩ := wrapped.slot (by decide)
    have lap : published.length / 255 % 2 = s.producer.cycle ∧ 0 < published.length := by
      obtain ⟨lap, length, _, parity⟩ := producer
      omega
    rw [call]
    refine ⟨total.symm ▸ ring, inv.notLink, total.symm ▸ wrapped.next (by decide), Or.inr Nat.one_pos,
      inv.consumer, inv.executed, by simp only [total]; omega, ?_⟩
    refine @Phase.linking _ _ links _ (by rw [slot]) (by rw [lap.1]; exact batch) lap.2 slot link
      (next (by omega) mark _ rfl)

/-- The driver makes one store. -/
theorem store {st : TrbStore} {rest : List TrbStore} (inv : RingInv s published)
    (pending : s.pending = st :: rest) :
    ∃ published', RingInv { s with ring := st.apply s.ring, pending := rest } published' := by
  have positive : (0 : ℕ) < 255 := by decide
  have inSlot := Nat.mod_lt published.length positive
  cases inv.phase with
  | idle nil _ _ =>
    rw [nil] at pending
    cases pending
  | @linking link t split batch started lapEnd linkAt next =>
    rw [pending] at split
    cases link with
    | nil => exact absurd rfl batch.ne_nil
    | cons first link =>
      obtain ⟨rfl, rfl⟩ := List.cons.inj split
      have ring (here : st.slot = 255) :
          CycleRing 255 Trb.cycle (st.apply s.ring) published s.submitted.length :=
        inv.ring.congr positive fun slot bound => TrbStore.apply_other st s.ring (by omega)
      rcases batch.cases with ⟨rfl, rfl⟩ | ⟨here, bit, batch⟩
      · refine ⟨published, ring rfl, inv.notLink, inv.producer, inv.started, inv.consumer, inv.executed,
          inv.window, .writing (trbStores_batch _ t) (applyStores_trbStores _ t _) (Or.inl ?_) ?_⟩
        · exact congrArg Trb.control
            (TrbStore.apply_same (.control 255 (linkControl (published.length / 255 % 2))) s.ring)
        · exact ⟨next.cycle, next.notLink, next.submitted⟩
      · refine ⟨published, ring here, inv.notLink, inv.producer, inv.started, inv.consumer, inv.executed,
          inv.window, .linking rfl batch started lapEnd (linkAt.congr ?_) ?_⟩
        · have same := TrbStore.apply_same st s.ring
          rw [here] at same
          exact (congrArg Trb.control same).trans (TrbStore.write_control bit _)
        · exact ⟨next.cycle, next.notLink, next.submitted⟩
  | @writing t batch result linkAt next =>
    have count : s.submitted.length = published.length + 1 := by
      rw [next.submitted, List.length_append, List.length_map, List.length_singleton]
    have ring := inv.ring
    rw [count] at ring
    rw [pending] at batch result
    have linkKept (here : st.slot = published.length % 255) : st.apply s.ring 255 = s.ring 255 :=
      TrbStore.apply_other st s.ring (by omega)
    rcases batch.cases with ⟨rfl, rfl⟩ | ⟨here, bit, batch⟩
    · have written : TrbStore.apply (.control (published.length % 255) t.control) s.ring =
          Function.update s.ring (published.length % 255) t := by
        have same := TrbStore.apply_same (.control (published.length % 255) t.control) s.ring
        exact congrArg (Function.update s.ring (published.length % 255)) (same.symm.trans result)
      refine ⟨published ++ [t], ?_, fun u member => ?_, inv.producer, inv.started, inv.consumer,
        inv.executed.trans (List.prefix_append _ _), inv.window, .idle rfl ?_ ?_⟩
      · rw [written, count]
        exact ring.publish positive next.cycle
      · rcases List.mem_append.mp member with earlier | last
        · exact inv.notLink u earlier
        · rw [List.mem_singleton.mp last]
          exact next.notLink
      · rw [next.submitted, List.map_append, List.map_singleton]
      · rw [List.length_append, List.length_singleton, Nat.add_sub_cancel]
        exact linkAt.congr (congrArg Trb.control (linkKept rfl))
    · refine ⟨published, ?_, inv.notLink, inv.producer, inv.started, inv.consumer, inv.executed,
        inv.window, .writing batch result ?_ ⟨next.cycle, next.notLink, next.submitted⟩⟩
      · rw [TrbStore.apply, here, count]
        apply ring.scribble
        rw [Trb.cycle, TrbStore.write_control bit]
        rfl
      · exact linkAt.congr (congrArg Trb.control (linkKept here))

/-- A matching link is a link, and not a blank one. -/
theorem link_of_match (inv : RingInv s published) (last : s.consumer.dequeue = 255)
    (ready : (s.ring 255).cycle = s.consumer.ccs) :
    (s.ring 255).type = xhciTrbLink ∧ (s.ring 255).toggleCycle = true := by
  obtain ⟨laps, bound, link⟩ : ∃ laps, (published.length - 1) / 255 ≤ laps ∧ LinkAt laps (s.ring 255) := by
    cases inv.phase with
    | idle _ _ link => exact ⟨_, le_refl _, link⟩
    | linking _ _ _ _ link _ => exact ⟨_, le_refl _, link⟩
    | writing _ _ link _ => exact ⟨_, Nat.div_le_div_right (Nat.sub_le _ _), link⟩
  have fields (cycle : ℕ) (bit : cycle ≤ 1) (word : (s.ring 255).control = linkControl cycle) :
      (s.ring 255).type = xhciTrbLink ∧ (s.ring 255).toggleCycle = true := by
    have fields := linkControl_fields bit (s.ring 255).parameter (s.ring 255).status
    rw [← word] at fields
    exact fields.2
  rcases link with word | ⟨rfl, blank | word⟩
  · exact fields _ (by omega) word
  · -- a blank link does not match before the second lap, and by then it was written
    obtain ⟨lap, count, _, parity⟩ := inv.consumer
    have le := inv.executed.length_le
    rw [Trb.cycle, blank] at ready
    omega
  · exact fields 1 (le_refl 1) word

/-- The controller makes one step. -/
theorem controller {consumer : RingConsumer} {done : Option Trb} (inv : RingInv s published)
    (step : s.consumer.step s.ring = some (consumer, done)) :
    RingInv { s with consumer := consumer, executed := s.executed ++ done.toList } published := by
  have bit := RingProducer.bit inv.consumer
  rw [RingConsumer.step] at step
  split at step
  · next ready =>
    rcases Nat.lt_or_ge s.consumer.dequeue 255 with inside | last
    · obtain ⟨slot, mark⟩ := inv.consumer.slot inside
      have bound : s.executed.length < published.length := by
        apply (inv.ring.ready_iff inv.executed.length_le inv.window).mp
        rw [slot, mark]
        exact ready
      have content : s.ring s.consumer.dequeue = published[s.executed.length] := by
        rw [← slot]
        exact inv.ring.stored _ bound inv.window
      have notLink : (s.ring s.consumer.dequeue).type ≠ xhciTrbLink := by
        rw [content]
        exact inv.notLink _ (List.getElem_mem bound)
      simp only [if_neg notLink, Option.some.injEq, Prod.mk.injEq] at step
      obtain ⟨rfl, rfl⟩ := step
      refine ⟨inv.ring, inv.notLink, inv.producer, inv.started, ?_, ?_, ?_, inv.phase.congr rfl rfl rfl⟩
      · rw [Option.toList_some, List.length_append, List.length_singleton]
        exact inv.consumer.next inside
      · rw [Option.toList_some, content]
        exact snoc_prefix inv.executed bound
      · rw [Option.toList_some, List.length_append]
        exact Nat.le_trans inv.window (by omega)
    · have ending : s.consumer.dequeue = 255 := by
        obtain ⟨_, _, bound, _⟩ := inv.consumer
        omega
      have cursor := inv.consumer
      rw [ending] at ready cursor
      obtain ⟨link, toggle⟩ := inv.link_of_match ending ready
      rw [ending] at step
      simp only [link, toggle, if_true, Option.some.injEq, Prod.mk.injEq] at step
      obtain ⟨rfl, rfl⟩ := step
      refine ⟨inv.ring, inv.notLink, inv.producer, inv.started, ?_, ?_, ?_, inv.phase.congr rfl rfl rfl⟩
      · rw [Option.toList_none, List.append_nil, xor_one_eq bit]
        exact cursor.wrap
      · rw [Option.toList_none, List.append_nil]
        exact inv.executed
      · rw [Option.toList_none, List.append_nil]
        exact inv.window
  · cases step

/-- With TRBs left the controller can go on, and executes the next one after at most one link. -/
theorem progress (driver : RingDriver κ) (inv : RingInv s published)
    (nil : s.pending = []) (left : s.executed.length < published.length) :
    ∃ es t, Path (RingStep driver) s es t ∧ (∀ e ∈ es, e = .controller) ∧ RingInv t published ∧
      t.pending = [] ∧ t.submitted = s.submitted ∧ t.executed.length = s.executed.length + 1 := by
  have execute (u : RingSystem) (inv : RingInv u published) (nil : u.pending = [])
      (left : u.executed.length < published.length) (inside : u.consumer.dequeue < 255) :
      ∃ t, RingStep driver u .controller t ∧ RingInv t published ∧ t.pending = [] ∧
        t.submitted = u.submitted ∧ t.executed.length = u.executed.length + 1 := by
    obtain ⟨slot, mark⟩ := inv.consumer.slot inside
    have ready := (inv.ring.ready_iff inv.executed.length_le inv.window).mpr left
    have content := inv.ring.stored _ left inv.window
    rw [slot] at ready content
    have notLink : (u.ring u.consumer.dequeue).type ≠ xhciTrbLink := by
      rw [content]
      exact inv.notLink _ (List.getElem_mem left)
    have step : u.consumer.step u.ring = some (⟨u.consumer.dequeue + 1, u.consumer.ccs⟩,
        some (u.ring u.consumer.dequeue)) := by
      simp only [RingConsumer.step, ready, mark, if_true, if_neg notLink]
    refine ⟨_, .controller step, inv.controller step, nil, rfl, ?_⟩
    rw [Option.toList_some, List.length_append, List.length_singleton]
  rcases Nat.lt_or_ge s.consumer.dequeue 255 with inside | last
  · obtain ⟨t, step, result⟩ := execute s inv nil left inside
    exact ⟨[.controller], t, .cons step (.nil t), fun e member => List.mem_singleton.mp member, result⟩
  · obtain ⟨_, linkAt⟩ := inv.idle_of_nil nil
    have ending : s.consumer.dequeue = 255 := by
      obtain ⟨_, _, bound, _⟩ := inv.consumer
      omega
    have bit := RingProducer.bit inv.consumer
    have ready : (s.ring 255).cycle = s.consumer.ccs := by
      obtain ⟨lap, count, _, parity⟩ := inv.consumer
      have window := inv.window
      obtain ⟨submitted, _⟩ := inv.idle_of_nil nil
      rw [submitted, List.length_map] at window
      rw [parity]
      rcases linkAt with word | ⟨zero, _⟩
      · rw [Trb.cycle, word, linkControl_eq (by omega)]
        omega
      · omega
    obtain ⟨link, toggle⟩ := inv.link_of_match ending ready
    have step : s.consumer.step s.ring = some (⟨0, s.consumer.ccs ^^^ 1⟩, none) := by
      simp only [RingConsumer.step, ending, ready, link, toggle, if_true]
    have inv' := inv.controller step
    have same : s.executed ++ (none : Option Trb).toList = s.executed := by
      rw [Option.toList_none, List.append_nil]
    obtain ⟨t, step', invT, nilT, submitted, executed⟩ := execute _ inv' nil
      (by simp only [same]; exact left) (Nat.zero_lt_succ 254)
    refine ⟨[.controller, .controller], t, .cons (.controller step) (.cons step' (.nil t)), fun e member => ?_,
      invT, nilT, submitted, by simpa only [same] using executed⟩
    simpa only [List.mem_cons, List.not_mem_nil, or_false, or_self] using member

end RingInv

end Steps

end RaryOS.Model
