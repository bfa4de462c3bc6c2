import RaryOS.Core.Path
import RaryOS.Proofs.Interrupts
import RaryOS.Soundness.IdtGates

/-! # Interrupts do not show

A C function that is called from a stub finds the interrupted state in its `struct regs`. If it returns with its
stack as it was, the interrupted program goes on as if nothing had come between, whatever the function did to the
registers and to memory that is not the program's. A system call changes `rax`.
-/

namespace RaryOS.Soundness

open RaryOS.Core RaryOS.Model

/-- A place of the saved state. -/
def InFrame (c : Cpu) (rsp0 : BitVec 64) (place : ℕ) : Prop :=
  (c.interruptStack rsp0).toNat - 176 ≤ place ∧ place < (c.interruptStack rsp0).toNat

theorem interruptStack_aligned (c : Cpu) (rsp0 : BitVec 64) : (c.interruptStack rsp0).toNat % 16 = 0 := by
  rw [Cpu.interruptStack]
  generalize (if c.cpl = 0 then c.stack.sp else rsp0) = sp
  have low : sp &&& ~~~0xF &&& 0xF = 0 := by
    rw [BitVec.and_assoc]
    exact BitVec.and_zero
  have mask : (sp &&& ~~~0xF).toNat &&& (2 ^ 4 - 1) = 0 := congrArg BitVec.toNat low
  rwa [Nat.and_two_pow_sub_one_eq_mod] at mask

section Entry

variable {c : Cpu} {gate : Gate} {rsp0 vector error : BitVec 64}

theorem atCall_rdi : (atCall c gate rsp0 vector error).regs .rdi = (atCall c gate rsp0 vector error).stack.sp := by
  rw [atCall]
  dsimp only
  rw [Function.update_self]

theorem atCall_cs : (atCall c gate rsp0 vector error).cs = gate.selector := rfl

theorem atCall_rflags : (atCall c gate rsp0 vector error).rflags = c.rflags &&& ~~~Cpu.gateFlags := rfl

theorem savedWords_length : (savedWords c vector error).length = 22 := rfl

theorem savedWords_room (fits : 176 ≤ (c.interruptStack rsp0).toNat) :
    8 * (savedWords c vector error).length ≤ (CallStack.mk c.stack.mem (c.interruptStack rsp0)).sp.toNat := fits

theorem atCall_sp (fits : 176 ≤ (c.interruptStack rsp0).toNat) :
    (atCall c gate rsp0 vector error).stack.sp.toNat = (c.interruptStack rsp0).toNat - 176 :=
  CallStack.pushAll_sp (savedWords_room fits)

/-- The saved state lies where the argument points. -/
theorem atCall_words (fits : 176 ≤ (c.interruptStack rsp0).toNat) :
    wordsFrom (atCall c gate rsp0 vector error).stack.mem (atCall c gate rsp0 vector error).stack.sp.toNat 22 =
      regsWords c.regs vector error c :=
  CallStack.wordsFrom_pushAll (savedWords_room fits)

theorem atCall_other (fits : 176 ≤ (c.interruptStack rsp0).toNat) {place : ℕ} (other : ¬InFrame c rsp0 place) :
    (atCall c gate rsp0 vector error).stack.mem place = c.stack.mem place := by
  apply CallStack.pushAll_other (savedWords_room fits)
  rw [savedWords_length]
  rw [InFrame] at other
  change place < (c.interruptStack rsp0).toNat - 176 ∨ (c.interruptStack rsp0).toNat ≤ place
  omega

end Entry

section Machine

variable {symbol : Stub → BitVec 64} {code : BitVec 64 → List Instr} {callee : Cpu → Cpu} {idt : ℕ} {rsp0 : BitVec 64}

/-- The interrupt descriptor table of the kernel lies at an address. -/
def IdtSet (symbol : Stub → BitVec 64) (idt : ℕ) (m : Memory) : Prop :=
  ∀ v : BitVec 8, Gate.read m (idt + 16 * v.toNat) = kernelGate symbol v

variable {c : Cpu} {v : BitVec 8} {stub : Stub}

theorem kernelGate_stub (here : stubOf v = some stub) :
    kernelGate symbol v = ⟨symbol stub, 0x08, 0, 0xE, if v = 0x80 then 3 else 0, true⟩ := by
  rw [kernelGate, here]
  rfl

theorem throughGate_stub (linked : ∀ stub, code (symbol stub) = stub.code) (set : IdtSet symbol idt c.stack.mem)
    (here : stubOf v = some stub) (error : Option (BitVec 64)) :
    c.throughGate code callee idt rsp0 v error =
      some (runInstrs callee stub.code (c.deliver (kernelGate symbol v) rsp0 error)) := by
  rw [Cpu.throughGate, set v, kernelGate_stub here, linked]
  exact if_pos ⟨rfl, rfl⟩

/-- Whatever is interrupted, on whichever stack, by a device, an exception or itself: the C function that the stub
calls gets a `struct regs` with the interrupted registers, the vector, the error code or zero, and the state to which
the processor returns. It runs in the kernel with interrupts disabled on a stack aligned to 16 bytes, and outside
this structure nothing was written. -/
theorem handler_finds_interrupted (linked : ∀ stub, code (symbol stub) = stub.code)
    (set : IdtSet symbol idt c.stack.mem) (here : stubOf v = some stub)
    (fits : 176 ≤ (c.interruptStack rsp0).toNat) (error : BitVec 64) :
    ∃ d : Cpu, (∀ callee, c.takeInterrupt code callee idt rsp0 v error =
        some (runInstrs callee stubReturn (callee d))) ∧
      d.regs .rdi = d.stack.sp ∧
      wordsFrom d.stack.mem d.stack.sp.toNat 22 =
        regsWords c.regs (v.setWidth 64) (if pushesError v then error else 0) c ∧
      d.cpl = 0 ∧ d.rflags.getLsbD 9 = false ∧ d.stack.sp.toNat % 16 = 0 ∧
      ∀ place, ¬InFrame c rsp0 place → d.stack.mem place = c.stack.mem place := by
  have aligned := interruptStack_aligned c rsp0
  have masked : (~~~Cpu.gateFlags).getLsbD 9 = false := by decide
  refine ⟨atCall c (kernelGate symbol v) rsp0 (v.setWidth 64) (if pushesError v then error else 0), fun callee => ?_,
    atCall_rdi, atCall_words fits, ?_, ?_, ?_, fun place other => atCall_other fits other⟩
  · rw [Cpu.takeInterrupt, throughGate_stub linked set here, runInstrs_entry here]
  · have ring : BitVec.setWidth 2 (0x08 : BitVec 16) = 0 := by decide
    rw [Cpu.cpl, atCall_cs, kernelGate_stub here]
    exact ring
  · rw [atCall_rflags, BitVec.getLsbD_and, masked, Bool.and_false]
  · rw [atCall_sp fits]
    omega

/-- A called C function has returned with its stack as it was and has kept some memory. -/
structure CallReturns (kept : ℕ → Prop) (d e : Cpu) : Prop where
  sp : e.stack.sp = d.stack.sp
  frame : ∀ place, d.stack.sp.toNat ≤ place → place < d.stack.sp.toNat + 176 → e.stack.mem place = d.stack.mem place
  kept : ∀ place, kept place → e.stack.mem place = d.stack.mem place

/-- What is assumed of the C function of an interrupt, when it is called on the stack of the interrupted state. -/
def Keeps (c : Cpu) (rsp0 : BitVec 64) (kept : ℕ → Prop) (callee : Cpu → Cpu) : Prop :=
  ∀ d, d.stack.sp.toNat + 176 = (c.interruptStack rsp0).toNat → CallReturns kept d (callee d)

/-- An interrupt keeps all registers, and the memory that its C function keeps. -/
theorem takeInterrupt_transparent (linked : ∀ stub, code (symbol stub) = stub.code)
    (set : IdtSet symbol idt c.stack.mem) (here : stubOf v = some stub)
    (fits : 176 ≤ (c.interruptStack rsp0).toNat) {kept : ℕ → Prop} (apart : ∀ place, kept place → ¬InFrame c rsp0 place)
    (keeps : Keeps c rsp0 kept callee) (error : BitVec 64) :
    ∃ m, c.takeInterrupt code callee idt rsp0 v error = some { c with stack := ⟨m, c.stack.sp⟩ } ∧
      ∀ place, kept place → m place = c.stack.mem place := by
  have bound := (c.interruptStack rsp0).isLt
  generalize gate : kernelGate symbol v = g
  generalize code' : (if pushesError v then error else 0) = e
  have below : (atCall c g rsp0 (v.setWidth 64) e).stack.sp.toNat + 176 = (c.interruptStack rsp0).toNat := by
    rw [atCall_sp fits]
    omega
  have called := keeps (atCall c g rsp0 (v.setWidth 64) e) below
  have words : wordsFrom (callee (atCall c g rsp0 (v.setWidth 64) e)).stack.mem
      (callee (atCall c g rsp0 (v.setWidth 64) e)).stack.sp.toNat 22 = regsWords c.regs (v.setWidth 64) e c := by
    rw [called.sp, CallStack.wordsFrom_congr fun place lower upper => called.frame place lower upper]
    exact atCall_words fits
  have room : (callee (atCall c g rsp0 (v.setWidth 64) e)).stack.sp.toNat + 176 < 2 ^ 64 := by
    rw [called.sp, atCall_sp fits]
    omega
  refine ⟨(callee (atCall c g rsp0 (v.setWidth 64) e)).stack.mem, ?_, fun place mine => ?_⟩
  · rw [Cpu.takeInterrupt, throughGate_stub linked set here, runInstrs_entry here, gate, code',
      runInstrs_return words room]
  · rw [called.kept place mine]
    exact atCall_other fits (apart place mine)

/-! ## System calls -/

/-- The compiled `exception_handler` has returned: its stack is as it was, the `rax` of the structure is the result,
and the rest of the structure and some memory is kept. -/
structure Answers (kept : ℕ → Prop) (result : BitVec 64) (d e : Cpu) : Prop where
  sp : e.stack.sp = d.stack.sp
  rax : BitVec.ofNat 64 (e.stack.mem.load64 (d.stack.sp.toNat + regsRax)) = result
  frame : ∀ place, d.stack.sp.toNat ≤ place → place < d.stack.sp.toNat + 176 →
    (place < d.stack.sp.toNat + regsRax ∨ d.stack.sp.toNat + regsRax + 8 ≤ place) →
      e.stack.mem place = d.stack.mem place
  kept : ∀ place, kept place → e.stack.mem place = d.stack.mem place

/-- What is assumed of the compiled function, when it is called on the stack of the interrupted state: it does what
`exception_handler` does with the registers in the structure. -/
def Compiles {σ : Type*} (c : Cpu) (rsp0 : BitVec 64) (handlers : List (EffectHandler σ)) (w : σ) (kept : ℕ → Prop)
    (callee : Cpu → Cpu) : Prop :=
  ∀ d w' r, d.stack.sp.toNat + 176 = (c.interruptStack rsp0).toNat → d.regs .rdi = d.stack.sp →
    exceptionHandler handlers w (Regs.read d.stack.mem (d.regs .rdi).toNat) = some (w', r) →
    Answers kept r.rax d (callee d)

theorem Regs.read_of_words {m : Memory} {address : ℕ} {f : Reg → BitVec 64} {vector error : BitVec 64}
    (words : wordsFrom m address 22 = regsWords f vector error c) :
    Regs.read m address = ⟨f .rax, f .rdi, f .rsi, f .rdx, f .rcx, vector⟩ := by
  have word (k : ℕ) (inside : k < 22) :
      some (BitVec.ofNat 64 (m.load64 (address + 8 * k))) = (regsWords f vector error c)[k]? := by
    rw [← words]
    exact (CallStack.getElem?_wordsFrom _ _ inside).symm
  rw [Regs.read, regsRax]
  exact Regs.mk.injEq .. ▸ ⟨Option.some.inj (word 14 (by decide)), Option.some.inj (word 8 (by decide)),
    Option.some.inj (word 9 (by decide)), Option.some.inj (word 12 (by decide)), Option.some.inj (word 13 (by decide)),
    Option.some.inj (word 15 (by decide))⟩

/-- The structure after the answer. -/
theorem Answers.words {kept : ℕ → Prop} {result : BitVec 64} {d e : Cpu} (answers : Answers kept result d e)
    {f : Reg → BitVec 64} {vector error : BitVec 64}
    (words : wordsFrom d.stack.mem d.stack.sp.toNat 22 = regsWords f vector error c) :
    wordsFrom e.stack.mem e.stack.sp.toNat 22 = regsWords (Function.update f .rax result) vector error c := by
  have parts (m : Memory) : wordsFrom m d.stack.sp.toNat 22 =
      wordsFrom m d.stack.sp.toNat 14 ++ (BitVec.ofNat 64 (m.load64 (d.stack.sp.toNat + regsRax)) ::
        wordsFrom m (d.stack.sp.toNat + regsRax + 8) 7) := by
    rw [regsRax, ← CallStack.wordsFrom_succ, ← CallStack.wordsFrom_add _ _ 14 8]
  have below : wordsFrom e.stack.mem d.stack.sp.toNat 14 = wordsFrom d.stack.mem d.stack.sp.toNat 14 :=
    CallStack.wordsFrom_congr fun place lower upper => answers.frame place lower (by omega) (Or.inl upper)
  have above : wordsFrom e.stack.mem (d.stack.sp.toNat + regsRax + 8) 7 =
      wordsFrom d.stack.mem (d.stack.sp.toNat + regsRax + 8) 7 :=
    CallStack.wordsFrom_congr fun place lower upper =>
      answers.frame place (by omega) (by rw [regsRax] at upper; omega) (Or.inr lower)
  rw [parts, ← List.take_append_drop 14 (regsWords f vector error c)] at words
  obtain ⟨first, rest⟩ := List.append_inj words (CallStack.length_wordsFrom _ _ 14)
  have last : wordsFrom d.stack.mem (d.stack.sp.toNat + regsRax + 8) 7 = (regsWords f vector error c).drop 15 :=
    (List.cons.inj rest).2
  rw [answers.sp, parts, below, above, answers.rax, first, last]
  rfl

/-- The effect that `int 0x80` makes of the registers. -/
def callEffect (c : Cpu) : Effect where
  op := (c.regs .rax).setWidth 32
  arg0 := c.regs .rdi
  arg1 := c.regs .rsi
  arg2 := c.regs .rdx
  arg3 := c.regs .rcx

/-- `int 0x80` offers the effect that the registers describe to the handlers, and the program goes on with the result
in `rax`, all other registers and the kept memory being as they were. No other vector is open to user programs. -/
theorem system_call_returns {σ : Type*} {handlers : List (EffectHandler σ)} {w w' : σ} {e : Effect}
    (linked : ∀ stub, code (symbol stub) = stub.code) (set : IdtSet symbol idt c.stack.mem)
    (fits : 176 ≤ (c.interruptStack rsp0).toNat) {kept : ℕ → Prop} (apart : ∀ place, kept place → ¬InFrame c rsp0 place)
    (compiles : Compiles c rsp0 handlers w kept callee)
    (performed : effectPerform handlers w (callEffect c) = some (w', e)) :
    (∃ m, c.int code callee idt rsp0 0x80 =
        some { c with regs := Function.update c.regs .rax e.result, stack := ⟨m, c.stack.sp⟩ } ∧
      ∀ place, kept place → m place = c.stack.mem place) ∧
    (c.cpl = 3 → ∀ v, v ≠ 0x80 → c.int code callee idt rsp0 v = none) := by
  have bound := (c.interruptStack rsp0).isLt
  have here : stubOf 0x80 = some (.isr 128) := rfl
  have quiet : pushesError 0x80 = false := rfl
  constructor
  · have entry := @runInstrs_entry callee c 0x80 _ here (kernelGate symbol 0x80) rsp0 0
    rw [quiet, if_neg Bool.false_ne_true, if_neg Bool.false_ne_true] at entry
    generalize called : atCall c (kernelGate symbol 0x80) rsp0 (BitVec.setWidth 64 (0x80 : BitVec 8)) 0 = d at entry
    have words : wordsFrom d.stack.mem d.stack.sp.toNat 22 = regsWords c.regs 0x80 0 c := by
      rw [← called]
      exact atCall_words fits
    have sp : d.stack.sp.toNat = (c.interruptStack rsp0).toNat - 176 := by
      rw [← called]
      exact atCall_sp fits
    have argument : d.regs .rdi = d.stack.sp := by
      rw [← called]
      exact atCall_rdi
    have handled : exceptionHandler handlers w (Regs.read d.stack.mem (d.regs .rdi).toNat) =
        some (w', ⟨e.result, c.regs .rdi, c.regs .rsi, c.regs .rdx, c.regs .rcx, 0x80⟩) := by
      have described : (⟨c.regs .rax, c.regs .rdi, c.regs .rsi, c.regs .rdx, c.regs .rcx, 0x80⟩ : Regs).effect =
          callEffect c := rfl
      rw [argument, Regs.read_of_words words, exceptionHandler, if_pos rfl, described, performed]
    have answers := compiles d w' _ (by omega) argument handled
    have room : (callee d).stack.sp.toNat + 176 < 2 ^ 64 := by
      rw [answers.sp, sp]
      omega
    refine ⟨(callee d).stack.mem, ?_, fun place mine => ?_⟩
    · have allowed : c.cpl.toNat ≤ (kernelGate symbol 0x80).dpl.toNat := Nat.le_of_lt_succ c.cpl.isLt
      rw [Cpu.int, set 0x80, if_pos allowed, throughGate_stub linked set here, entry,
        runInstrs_return (answers.words words) room]
    · rw [answers.kept place mine, ← called]
      exact atCall_other fits (apart place mine)
  · intro user v other
    have closed : (kernelGate symbol v).dpl = 0 := by
      cases stub : stubOf v with
      | none =>
        rw [kernelGate, stub]
        rfl
      | some s => rw [kernelGate_stub stub, if_neg other]
    rw [Cpu.int, set v, closed, user]
    rfl

/-! ## A program between interrupts -/

/-- What a program can see: the registers, and its own memory. -/
structure ProgramView (mine : ℕ → Prop) where
  regs : Reg → BitVec 64
  rip : BitVec 64
  cs : BitVec 16
  rflags : BitVec 64
  ss : BitVec 16
  rsp : BitVec 64
  mem : { place // mine place } → BitVec 8

def programView (mine : ℕ → Prop) (c : Cpu) : ProgramView mine where
  regs := c.regs
  rip := c.rip
  cs := c.cs
  rflags := c.rflags
  ss := c.ss
  rsp := c.stack.sp
  mem place := c.stack.mem place

/-- The memory of the program, and the interrupt descriptor table. -/
def MineOrIdt (mine : ℕ → Prop) (idt place : ℕ) : Prop :=
  mine place ∨ (idt ≤ place ∧ place < idt + 4096)

/-- An instruction of the program, or an interrupt. -/
inductive MachineLabel (ι : Type*) where
  | instr (i : ι)
  | interrupt (v : BitVec 8)

def MachineLabel.instr? {ι : Type*} : MachineLabel ι → Option ι
  | instr i => some i
  | interrupt _ => none

/-- One step: the program executes an instruction, which acts on what it can see, or an interrupt comes whose C
function returns and keeps the program's memory. -/
inductive MachineStep {ι : Type*} (code : BitVec 64 → List Instr) (idt : ℕ) (rsp0 : BitVec 64) (mine : ℕ → Prop)
    (exec : ι → ProgramView mine → ProgramView mine) : Cpu → MachineLabel ι → Cpu → Prop
  | instr {c c' : Cpu} (i : ι) : programView mine c' = exec i (programView mine c) →
      (∀ place, idt ≤ place → place < idt + 4096 → c'.stack.mem place = c.stack.mem place) →
      MachineStep code idt rsp0 mine exec c (.instr i) c'
  | interrupt {c c' : Cpu} {callee : Cpu → Cpu} {stub : Stub} (v : BitVec 8) (error : BitVec 64) :
      stubOf v = some stub → 176 ≤ (c.interruptStack rsp0).toNat →
      (∀ place, MineOrIdt mine idt place → ¬InFrame c rsp0 place) →
      Keeps c rsp0 (MineOrIdt mine idt) callee →
      c.takeInterrupt code callee idt rsp0 v error = some c' →
      MachineStep code idt rsp0 mine exec c (.interrupt v) c'

theorem IdtSet.congr {m m' : Memory} (set : IdtSet symbol idt m)
    (same : ∀ place, idt ≤ place → place < idt + 4096 → m' place = m place) : IdtSet symbol idt m' := by
  intro v
  have bound := v.isLt
  have byte (k : ℕ) (inside : k < 16) : m' (idt + 16 * v.toNat + k) = m (idt + 16 * v.toNat + k) :=
    same _ (by omega) (by omega)
  rw [← set v]
  exact Gate.read_congr byte

section Run

variable {ι : Type*} {mine : ℕ → Prop} {exec : ι → ProgramView mine → ProgramView mine} {c' : Cpu}
  {label : MachineLabel ι}

/-- One step keeps the table, and an interrupt does not show. -/
theorem MachineStep.seen (linked : ∀ stub, code (symbol stub) = stub.code) (set : IdtSet symbol idt c.stack.mem)
    (step : MachineStep code idt rsp0 mine exec c label c') :
    IdtSet symbol idt c'.stack.mem ∧
      programView mine c' = label.instr?.elim (programView mine c) fun i => exec i (programView mine c) := by
  cases step with
  | instr i acts same => exact ⟨set.congr same, acts⟩
  | interrupt v error here fits apart keeps taken =>
    obtain ⟨m, result, kept⟩ := takeInterrupt_transparent linked set here fits apart keeps error
    obtain rfl := Option.some.inj (taken.symm.trans result)
    refine ⟨set.congr fun place lower upper => kept place (Or.inr ⟨lower, upper⟩), ?_⟩
    exact congrArg (fun mem => ({ programView mine c with mem } : ProgramView mine))
      (funext fun place => kept place (Or.inl place.2))

/-- Whatever interrupts come between the instructions of a program, its registers and its memory are at every moment
what its instructions alone make of them. -/
theorem interrupts_do_not_show (linked : ∀ stub, code (symbol stub) = stub.code)
    (set : IdtSet symbol idt c.stack.mem) {labels : List (MachineLabel ι)}
    (run : Path (MachineStep code idt rsp0 mine exec) c labels c') :
    programView mine c' =
      (labels.filterMap MachineLabel.instr?).foldl (fun view i => exec i view) (programView mine c) := by
  have seen := run.view_foldl (fun c => IdtSet symbol idt c.stack.mem) (programView mine)
    (fun view label => label.instr?.elim view fun i => exec i view) set
    (fun s e t inv step => (step.seen linked inv).1) fun s e t inv step => (step.seen linked inv).2
  rw [seen, List.foldl_filterMap]
  congr 1
  funext view label
  cases label <;> rfl

end Run

end Machine

/-! ## A machine -/

/-- The stubs lie at small addresses. -/
def sampleSymbol : Stub → BitVec 64
  | .isr num => num.setWidth 64
  | .irq num => num.setWidth 64 + 0x100

def sampleCode (address : BitVec 64) : List Instr :=
  if address.toNat < 0x100 then (Stub.isr (address.setWidth 8)).code else (Stub.irq (address.setWidth 8)).code

theorem sampleCode_linked (stub : Stub) : sampleCode (sampleSymbol stub) = stub.code := by
  have back (num : BitVec 8) : (num.setWidth 64).setWidth 8 = num := by
    rw [BitVec.setWidth_setWidth_of_le _ (by decide), BitVec.setWidth_eq]
  cases stub with
  | isr num =>
    have small : (num.setWidth 64).toNat < 0x100 := by
      rw [BitVec.toNat_setWidth]
      exact Nat.lt_of_le_of_lt (Nat.mod_le _ _) num.isLt
    rw [sampleSymbol, sampleCode, if_pos small, back]
  | irq num =>
    have large : ¬(num.setWidth 64 + 0x100).toNat < 0x100 := by
      have bound := num.isLt
      rw [BitVec.toNat_add, BitVec.toNat_setWidth]
      change ¬(num.toNat % 2 ^ 64 + 0x100) % 2 ^ 64 < 0x100
      omega
    have low : (num.setWidth 64 + 0x100).setWidth 8 = num := by
      rw [BitVec.setWidth_add _ _ (by decide), back]
      exact BitVec.add_zero num
    rw [sampleSymbol, sampleCode, if_neg large, low]

/-- A user program with the kernel's table at 0x1000. -/
def sampleCpu : Cpu where
  regs := fun _ => 7
  rip := 0x400000
  cs := 0x33
  rflags := 0x202
  ss := 0x2B
  stack := ⟨(initIdt sampleSymbol 0x2000 0x1000 fun _ => 0).1, 0x500000⟩

theorem sampleCpu_set : IdtSet sampleSymbol 0x1000 sampleCpu.stack.mem := initIdt_gate _ _ _ _

/-- The memory of user programs. -/
def sampleMine (place : ℕ) : Prop := 0x400000 ≤ place

theorem sampleMine_apart {place : ℕ} (mine : MineOrIdt sampleMine 0x1000 place) : ¬InFrame sampleCpu 0x3000 place := by
  have base : (sampleCpu.interruptStack 0x3000).toNat = 0x3000 := by decide
  rw [InFrame, base]
  rw [MineOrIdt, sampleMine] at mine
  omega

/-- A page fault of the program. -/
theorem handler_finds_interrupted_sample :
    ∃ d : Cpu, wordsFrom d.stack.mem d.stack.sp.toNat 22 =
        [7, 7, 7, 7, 7, 7, 7, 7, 7, 7, 7, 7, 7, 7, 7, 14, 6, 0x400000, 0x33, 0x202, 0x500000, 0x2B] ∧
      d.regs .rdi = d.stack.sp ∧ d.cpl = 0 := by
  have fits : 176 ≤ (sampleCpu.interruptStack 0x3000).toNat := by decide
  have pageFault : stubOf 14 = some (.isr 14) := rfl
  obtain ⟨d, _, argument, words, ring, _⟩ :=
    handler_finds_interrupted sampleCode_linked sampleCpu_set pageFault fits 6
  exact ⟨d, words, argument, ring⟩

/-- A handler that adds one, compiled. -/
def sampleHandlers : List (EffectHandler Unit) := [fun w e => some (w, { e with result := e.arg0 + 1 }, 1)]

def sampleAnswer (d : Cpu) : Cpu :=
  let handled := exceptionHandler sampleHandlers () (Regs.read d.stack.mem (d.regs .rdi).toNat)
  let rax := handled.elim 0 fun r => r.2.rax
  { d with stack := { d.stack with mem := d.stack.mem.store64 (d.stack.sp.toNat + regsRax) rax.toNat } }

theorem sampleAnswer_compiles : Compiles sampleCpu 0x3000 sampleHandlers () sampleMine sampleAnswer := by
  intro d w' r below _ handled
  have base : (sampleCpu.interruptStack 0x3000).toNat = 0x3000 := by decide
  rw [base] at below
  rw [sampleAnswer, handled]
  refine ⟨rfl, ?_, fun place lower upper other => ?_, fun place mine => ?_⟩
  · dsimp only
    rw [Memory.load64_store64_same, Option.elim_some, Nat.mod_eq_of_lt r.rax.isLt, BitVec.ofNat_toNat,
      BitVec.setWidth_eq]
  · exact Memory.store_apply_of_outside _ _ other
  · rw [sampleMine] at mine
    exact Memory.store_apply_of_outside _ _ (Or.inr (by rw [regsRax]; omega))

theorem system_call_returns_sample :
    ∃ m, sampleCpu.int sampleCode sampleAnswer 0x1000 0x3000 0x80 =
        some { sampleCpu with regs := Function.update sampleCpu.regs .rax 8, stack := ⟨m, 0x500000⟩ } ∧
      sampleCpu.int sampleCode sampleAnswer 0x1000 0x3000 14 = none := by
  have performed : effectPerform sampleHandlers () (callEffect sampleCpu) =
      some ((), { callEffect sampleCpu with result := 8 }) := rfl
  obtain ⟨⟨m, result, _⟩, closed⟩ := system_call_returns sampleCode_linked sampleCpu_set (by decide)
    (fun _ mine => sampleMine_apart (Or.inl mine)) sampleAnswer_compiles performed
  exact ⟨m, result, closed rfl 14 (by decide)⟩

/-- A C function that leaves nothing in the registers. -/
def sampleScramble (d : Cpu) : Cpu := { d with regs := fun _ => 0, rflags := 0 }

/-- The timer interrupts between two instructions. -/
theorem interrupts_do_not_show_sample :
    ∃ c : Cpu, c.rip = 0x400002 ∧ c.regs .rbx = 7 ∧
      Path (MachineStep sampleCode 0x1000 0x3000 sampleMine fun (_ : Unit) view => { view with rip := view.rip + 1 })
        sampleCpu [.instr (), .interrupt 32, .instr ()] c := by
  let next : Cpu := { sampleCpu with rip := sampleCpu.rip + 1 }
  have keeps : Keeps next 0x3000 (MineOrIdt sampleMine 0x1000) sampleScramble :=
    fun d _ => ⟨rfl, fun _ _ _ => rfl, fun _ _ => rfl⟩
  have apart : ∀ place, MineOrIdt sampleMine 0x1000 place → ¬InFrame next 0x3000 place :=
    fun _ mine => sampleMine_apart mine
  obtain ⟨m, taken, _⟩ := takeInterrupt_transparent (c := next) (v := 32) sampleCode_linked sampleCpu_set rfl
    (show 176 ≤ (next.interruptStack 0x3000).toNat by decide) apart keeps 0
  let resumed : Cpu := { next with stack := ⟨m, next.stack.sp⟩ }
  let exec (_ : Unit) (view : ProgramView sampleMine) : ProgramView sampleMine := { view with rip := view.rip + 1 }
  have first : MachineStep sampleCode 0x1000 0x3000 sampleMine exec sampleCpu (.instr ()) next :=
    .instr () rfl fun _ _ _ => rfl
  have second : MachineStep sampleCode 0x1000 0x3000 sampleMine exec next (.interrupt 32) resumed :=
    .interrupt 32 0 rfl (by decide) apart keeps taken
  have third : MachineStep sampleCode 0x1000 0x3000 sampleMine exec resumed (.instr ())
      { resumed with rip := resumed.rip + 1 } := .instr () rfl fun _ _ _ => rfl
  have run := Path.cons first (.cons second (.cons third (.nil _)))
  have shown := interrupts_do_not_show sampleCode_linked sampleCpu_set run
  exact ⟨_, congrArg ProgramView.rip shown, congrFun (congrArg ProgramView.regs shown) .rbx, run⟩

end RaryOS.Soundness
