import RaryOS.Model.Interrupts

/-! # Entry and return through the stubs

Entering a stub lays a `struct regs` on the stack; returning from one restores whatever such a structure holds.
-/

namespace RaryOS.Model

open RaryOS.Core

variable {callee : Cpu → Cpu} {c : Cpu}

theorem runInstrs_append (first second : List Instr) :
    runInstrs callee (first ++ second) c = runInstrs callee second (runInstrs callee first c) :=
  List.foldl_append

theorem runInstrs_pushes (rs : List Reg) :
    runInstrs callee (rs.map .push) c = { c with stack := c.stack.pushAll (rs.map c.regs) } := by
  induction rs generalizing c with
  | nil => rfl
  | cons r rest ih =>
    have one : Instr.run callee c (.push r) = { c with stack := c.stack.push (c.regs r) } := rfl
    rw [List.map_cons, runInstrs, List.foldl_cons, ← runInstrs, one, ih]
    rfl

theorem runInstrs_pushImms (values : List (BitVec 64)) :
    runInstrs callee (values.map .pushImm) c = { c with stack := c.stack.pushAll values } := by
  induction values generalizing c with
  | nil => rfl
  | cons value rest ih =>
    have one : Instr.run callee c (.pushImm value) = { c with stack := c.stack.push value } := rfl
    rw [List.map_cons, runInstrs, List.foldl_cons, ← runInstrs, one, ih]
    rfl

/-- A register that is popped twice gets the same value twice. -/
theorem runInstrs_pops {rs : List Reg} {f : Reg → BitVec 64}
    (values : wordsFrom c.stack.mem c.stack.sp.toNat rs.length = rs.map f)
    (room : c.stack.sp.toNat + 8 * rs.length < 2 ^ 64) :
    runInstrs callee (rs.map .pop) c =
      { c with
        regs := fun r => if r ∈ rs then f r else c.regs r
        stack := { c.stack with sp := c.stack.sp + BitVec.ofNat 64 (8 * rs.length) } } := by
  induction rs generalizing c with
  | nil => exact congrArg (fun sp => { c with stack := { c.stack with sp } }) (BitVec.add_zero _).symm
  | cons r rest ih =>
    rw [List.length_cons] at room
    rw [List.length_cons, CallStack.wordsFrom_succ, List.map_cons, List.cons.injEq] at values
    have one : Instr.run callee c (.pop r) = { c.setReg r (f r) with stack := c.stack.drop } := by
      rw [Instr.run, CallStack.top, values.1]
    have next : c.stack.drop.sp.toNat = c.stack.sp.toNat + 8 := CallStack.toNat_add (n := 8) (by omega)
    have room' : c.stack.drop.sp.toNat + 8 * rest.length < 2 ^ 64 := by omega
    have later := @ih { c.setReg r (f r) with stack := c.stack.drop } (next ▸ values.2) room'
    rw [List.map_cons, runInstrs, List.foldl_cons, ← runInstrs, one, later]
    have moved : c.stack.drop.sp + BitVec.ofNat 64 (8 * rest.length) =
        c.stack.sp + BitVec.ofNat 64 (8 * (rest.length + 1)) := by
      rw [CallStack.drop, Nat.mul_succ, Nat.add_comm, BitVec.ofNat_add, ← BitVec.add_assoc]
      rfl
    have registers : (fun r' => if r' ∈ rest then f r' else Function.update c.regs r (f r) r') =
        fun r' => if r' ∈ r :: rest then f r' else c.regs r' := by
      funext r'
      rcases em (r' ∈ rest) with again | new
      · rw [if_pos again, if_pos (List.mem_cons_of_mem r again)]
      rcases em (r' = r) with rfl | other
      · rw [if_neg new, if_pos List.mem_cons_self, Function.update_self]
      · rw [if_neg new, Function.update_of_ne other, if_neg fun member => (List.mem_cons.mp member).elim other new]
    exact congrArg₂ (fun regs sp => { c with regs, stack := { c.stack with sp } }) registers moved

/-- What lies on the stack when the stub has saved the registers. -/
def savedWords (c : Cpu) (vector error : BitVec 64) : List (BitVec 64) :=
  c.returnFrame (some error) ++ [vector] ++ savedRegs.map c.regs

/-- The machine when the C function is called. -/
def atCall (c : Cpu) (gate : Gate) (rsp0 vector error : BitVec 64) : Cpu :=
  let stack := (CallStack.mk c.stack.mem (c.interruptStack rsp0)).pushAll (savedWords c vector error)
  { regs := Function.update c.regs .rdi stack.sp
    rip := gate.offset
    cs := gate.selector
    rflags := c.rflags &&& ~~~Cpu.gateFlags
    ss := if c.cpl = 0 then c.ss else 0
    stack }

/-- Everything after the call. -/
def stubReturn : List Instr := savedRegs.reverse.map .pop ++ [.addRsp 16, .iretq]

/-- A stub that has pushed some words when its common part begins. -/
theorem runInstrs_stub {gate : Gate} {rsp0 vector error : BitVec 64} {pushed : Option (BitVec 64)}
    (values : List (BitVec 64))
    (frame : c.returnFrame pushed ++ values = c.returnFrame (some error) ++ [vector]) :
    runInstrs callee (values.map .pushImm ++ interruptCommon) (c.deliver gate rsp0 pushed) =
      runInstrs callee stubReturn (callee (atCall c gate rsp0 vector error)) := by
  have stack : (((CallStack.mk c.stack.mem (c.interruptStack rsp0)).pushAll (c.returnFrame pushed)).pushAll
      values).pushAll (savedRegs.map c.regs) =
        (CallStack.mk c.stack.mem (c.interruptStack rsp0)).pushAll (savedWords c vector error) := by
    rw [← CallStack.pushAll_append, ← CallStack.pushAll_append, ← List.append_assoc, frame, savedWords]
  rw [runInstrs_append, runInstrs_pushImms, interruptCommon, List.append_assoc, List.append_assoc, runInstrs_append,
    runInstrs_pushes, runInstrs_append, ← stubReturn, Cpu.deliver, stack, atCall]
  rfl

/-- The stubs fill the place of a missing error code with zero. -/
theorem runInstrs_entry {v : BitVec 8} {stub : Stub} (here : stubOf v = some stub) (gate : Gate)
    (rsp0 error : BitVec 64) :
    runInstrs callee stub.code (c.deliver gate rsp0 (if pushesError v then some error else none)) =
      runInstrs callee stubReturn
        (callee (atCall c gate rsp0 (v.setWidth 64) (if pushesError v then error else 0))) := by
  have withError : runInstrs callee (isrErr (v.setWidth 64)) (c.deliver gate rsp0 (some error)) =
      runInstrs callee stubReturn (callee (atCall c gate rsp0 (v.setWidth 64) error)) :=
    runInstrs_stub [v.setWidth 64] rfl
  have withoutError : runInstrs callee ([.pushImm 0, .pushImm (v.setWidth 64)] ++ interruptCommon)
      (c.deliver gate rsp0 none) = runInstrs callee stubReturn (callee (atCall c gate rsp0 (v.setWidth 64) 0)) :=
    runInstrs_stub [0, v.setWidth 64] rfl
  rw [stubOf] at here
  split at here
  · obtain rfl := Option.some.inj here
    rw [Stub.code]
    rcases em (v.toNat ∈ isrErrVectors) with pushes | none
    · have pushesIt : pushesError v = true := decide_eq_true pushes
      rw [if_pos pushes, if_pos pushesIt, if_pos pushesIt]
      exact withError
    · have pushesNone : ¬pushesError v = true := mt of_decide_eq_true none
      rw [if_neg none, if_neg pushesNone, if_neg pushesNone]
      exact withoutError
  rename_i above
  have none : ¬pushesError v = true := by
    intro pushes
    have member : v.toNat ∈ isrErrVectors := of_decide_eq_true pushes
    have small : ∀ n ∈ isrErrVectors, n < 32 := by decide
    exact above (small _ member)
  rw [if_neg none, if_neg none]
  split at here
  · obtain rfl := Option.some.inj here
    rw [Stub.code]
    exact withoutError
  split at here
  · rename_i is
    obtain rfl := Option.some.inj here
    subst is
    exact withoutError
  · exact absurd here.symm (Option.some_ne_none stub)

/-! ## The return -/

/-- Returning through a `struct regs` restores what it holds. -/
theorem runInstrs_return {e : Cpu} {f : Reg → BitVec 64} {vector error : BitVec 64}
    (words : wordsFrom e.stack.mem e.stack.sp.toNat 22 = regsWords f vector error c)
    (room : e.stack.sp.toNat + 176 < 2 ^ 64) :
    runInstrs callee stubReturn e = { c with regs := f, stack := ⟨e.stack.mem, c.stack.sp⟩ } := by
  have load (k : ℕ) (inside : k < 22) :
      (regsWords f vector error c)[k]? = some (BitVec.ofNat 64 (e.stack.mem.load64 (e.stack.sp.toNat + 8 * k))) := by
    rw [← words]
    exact CallStack.getElem?_wordsFrom _ _ inside
  have registers : wordsFrom e.stack.mem e.stack.sp.toNat savedRegs.reverse.length = savedRegs.reverse.map f := by
    have parts := (CallStack.wordsFrom_add e.stack.mem e.stack.sp.toNat 15 7).symm.trans words
    exact (List.append_inj parts (CallStack.length_wordsFrom _ _ 15)).1
  have all (r : Reg) : r ∈ savedRegs.reverse := by
    cases r <;> decide
  have restored : (fun r => if r ∈ savedRegs.reverse then f r else e.regs r) = f := funext fun r => if_pos (all r)
  have frame : (e.stack.sp + BitVec.ofNat 64 120 + 16).toNat = e.stack.sp.toNat + 8 * 17 := by
    have popped : (e.stack.sp + BitVec.ofNat 64 120).toNat = e.stack.sp.toNat + 120 := CallStack.toNat_add (by omega)
    have skipped : (e.stack.sp + BitVec.ofNat 64 120 + BitVec.ofNat 64 16).toNat =
        (e.stack.sp + BitVec.ofNat 64 120).toNat + 16 := CallStack.toNat_add (by omega)
    rw [popped] at skipped
    exact skipped
  have word (k : ℕ) (inside : 17 + k < 22) : some (BitVec.ofNat 64 (e.stack.mem.load64
      ((e.stack.sp + BitVec.ofNat 64 120 + 16).toNat + 8 * k))) = (regsWords f vector error c)[17 + k]? := by
    rw [load (17 + k) inside, frame, Nat.add_assoc, ← Nat.mul_add]
  have narrow (selector : BitVec 16) : (selector.setWidth 64).setWidth 16 = selector := by
    rw [BitVec.setWidth_setWidth_of_le _ (by decide), BitVec.setWidth_eq]
  rw [stubReturn, runInstrs_append, runInstrs_pops registers (show e.stack.sp.toNat + 8 * 15 < 2 ^ 64 by omega),
    restored]
  change Cpu.iretq { e with regs := f, stack := ⟨e.stack.mem, e.stack.sp + BitVec.ofNat 64 120 + 16⟩ } = _
  rw [Cpu.iretq]
  dsimp only
  rw [Option.some.inj (word 0 (by decide)), Option.some.inj (word 1 (by decide)), Option.some.inj (word 2 (by decide)),
    Option.some.inj (word 3 (by decide)), Option.some.inj (word 4 (by decide)), narrow, narrow]

end RaryOS.Model
