import RaryOS.Model.Irq

/-! # Runs of the interrupt table

A handler that is registered stays until it is unregistered, whatever comes between, and its count is the number of
its interrupts since then.
-/

namespace RaryOS.Soundness

open RaryOS.Model

/-- The calls that change the table. -/
inductive IrqOp (H : Type*) where
  | register (vector : BitVec 8) (handler : H) (name : String)
  | unregister (vector : BitVec 8)
  | dispatch (vector : BitVec 64)

section Table

variable {H σ : Type*} {run : H → σ → σ × List DeviceWrite} {s : IrqState H σ} {v : BitVec 8} {h : H} {name : String}

def irqStep (run : H → σ → σ × List DeviceWrite) (s : IrqState H σ) : IrqOp H → IrqState H σ
  | .register vector handler name => (irqRegister s vector handler name).1
  | .unregister vector => irqUnregister s vector
  | .dispatch vector => irqDispatch run s vector

/-- An interrupt with this vector. -/
def IrqOp.Hits (v : BitVec 8) : IrqOp H → Bool
  | .register _ _ _ => false
  | .unregister _ => false
  | .dispatch vector => vector.setWidth 8 = v

/-- The handler of this vector is taken away. -/
def IrqOp.Removes (v : BitVec 8) : IrqOp H → Bool
  | .register _ _ _ => false
  | .unregister vector => vector = v
  | .dispatch _ => false

@[simp] theorem setEntry_same (entry : IrqEntry H) : (s.setEntry v entry).table v = entry := if_pos rfl

theorem setEntry_other {w : BitVec 8} (other : w ≠ v) (entry : IrqEntry H) : (s.setEntry v entry).table w = s.table w :=
  if_neg other

/-- An interrupt counts for its own entry only, and only if that has a handler. -/
theorem irqDispatch_table (run : H → σ → σ × List DeviceWrite) (s : IrqState H σ) (vector : BitVec 64) (v : BitVec 8) :
    (irqDispatch run s vector).table v =
      if vector.setWidth 8 = v ∧ (s.table v).handler.isSome then { s.table v with count := (s.table v).count + 1 }
      else s.table v := by
  rw [irqDispatch]
  dsimp only
  rcases em (vector.setWidth 8 = v) with rfl | other
  · cases registered : (s.table (vector.setWidth 8)).handler with
    | none => exact (if_neg fun both => Bool.false_ne_true both.2).symm
    | some handler =>
      rw [Option.isSome_some, if_pos ⟨rfl, rfl⟩]
      exact if_pos rfl
  · rw [if_neg fun both => other both.1]
    cases (s.table (vector.setWidth 8)).handler with
    | none => rfl
    | some handler => exact if_neg (Ne.symm other)

/-- The handler is called after the acknowledgement. -/
theorem irqDispatch_handled {run : H → σ → σ × List DeviceWrite} {vector : BitVec 64}
    (handled : (s.table (vector.setWidth 8)).handler = some h) :
    (irqDispatch run s vector).world = (run h s.world).1 ∧
      (irqDispatch run s vector).writes = s.writes ++ irqEoi (vector.setWidth 8) ++ (run h s.world).2 := by
  rw [irqDispatch]
  dsimp only
  rw [handled]
  exact ⟨rfl, rfl⟩

theorem irqDispatch_unhandled {run : H → σ → σ × List DeviceWrite} {vector : BitVec 64}
    (unhandled : (s.table (vector.setWidth 8)).handler = none) :
    irqDispatch run s vector = { s with writes := s.writes ++ irqEoi (vector.setWidth 8) } := by
  rw [irqDispatch]
  dsimp only
  rw [unhandled]

/-- The entry of a vector with this handler and this count. -/
def Registered (s : IrqState H σ) (v : BitVec 8) (h : H) (name : String) (n : ℕ) : Prop :=
  s.table v = { handler := some h, name := some name, count := BitVec.ofNat 64 n }

theorem Registered.taken {n : ℕ} (registered : Registered s v h name n) (h' : H) (name' : String) :
    irqRegister s v h' name' = (s, -1) := by
  rw [irqRegister, registered]
  rfl

/-- A call that does not remove the handler. -/
theorem Registered.step {n : ℕ} (registered : Registered s v h name n) {op : IrqOp H} (stays : op.Removes v = false) :
    Registered (irqStep run s op) v h name (n + if op.Hits v then 1 else 0) := by
  cases op with
  | register vector handler name' =>
    rw [irqStep, IrqOp.Hits, if_neg Bool.false_ne_true, Nat.add_zero]
    rcases em (vector = v) with rfl | other
    · rw [registered.taken]
      exact registered
    · rw [irqRegister]
      split
      · exact registered
      · exact (setEntry_other (Ne.symm other) _).trans registered
  | unregister vector =>
    have other : v ≠ vector := fun same => of_decide_eq_false stays same.symm
    rw [irqStep, IrqOp.Hits, if_neg Bool.false_ne_true, Nat.add_zero]
    exact (setEntry_other other _).trans registered
  | dispatch vector =>
    rw [Registered, irqStep, irqDispatch_table, registered, IrqOp.Hits, Option.isSome_some]
    simp only [and_true, decide_eq_true_eq]
    split
    · rw [BitVec.ofNat_add]
      rfl
    · rfl

/-- Any calls that do not remove it. -/
theorem Registered.steps {n : ℕ} (registered : Registered s v h name n) {ops : List (IrqOp H)}
    (stays : ∀ op ∈ ops, op.Removes v = false) :
    Registered (ops.foldl (irqStep run) s) v h name (n + ops.countP (IrqOp.Hits v)) := by
  induction ops generalizing s n with
  | nil => exact registered
  | cons op rest ih =>
    rw [List.forall_mem_cons] at stays
    rw [List.countP_cons, Nat.add_comm (rest.countP _), ← Nat.add_assoc]
    exact ih (registered.step stays.1) stays.2

/-- Once `irq_register` has succeeded for a vector, then after any calls that do not unregister it the entry has this
handler and name, its count is the number of the interrupts with this vector, and the vector is taken. -/
theorem registered_until_removed {s' : IrqState H σ} (success : irqRegister s v h name = (s', 0)) {ops : List (IrqOp H)}
    (stays : ∀ op ∈ ops, op.Removes v = false) :
    Registered (ops.foldl (irqStep run) s') v h name (ops.countP (IrqOp.Hits v)) ∧
      ∀ h' name', irqRegister (ops.foldl (irqStep run) s') v h' name' = (ops.foldl (irqStep run) s', -1) := by
  have start : Registered s' v h name 0 := by
    rw [irqRegister] at success
    split at success
    · exact absurd (Prod.mk.inj success).2 (by decide)
    · obtain ⟨rfl, -⟩ := Prod.mk.inj success
      exact setEntry_same _
  have done := @Registered.steps _ _ run _ _ _ _ _ start _ stays
  rw [Nat.zero_add] at done
  exact ⟨done, done.taken⟩

end Table

/-- A timer that interrupts twice, once with other bits above the vector, while its vector is asked for again and
another one is unregistered. -/
theorem registered_until_removed_sample :
    let run : Unit → ℕ → ℕ × List DeviceWrite := fun _ n => (n + 1, [])
    let s : IrqState Unit ℕ := (irqRegister (irqInit ⟨fun _ => {}, [], 0⟩) 32 () "timer").1
    irqGetCount ([.dispatch 32, .register 32 () "other", .unregister 33, .dispatch 0x120].foldl (irqStep run) s) 32 =
      2 := by
  intro run s
  have success : irqRegister (irqInit ⟨fun _ => {}, [], 0⟩) 32 () "timer" = (s, 0) := rfl
  have stays : ∀ op ∈ [IrqOp.dispatch 32, .register 32 () "other", .unregister 33, .dispatch 0x120],
      op.Removes 32 = false := by decide
  have kept := (@registered_until_removed _ _ run _ _ _ _ _ success _ stays).1
  rw [irqGetCount, kept]
  rfl

end RaryOS.Soundness
