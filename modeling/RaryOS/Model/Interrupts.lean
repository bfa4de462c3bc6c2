import RaryOS.Core.CallStack
import RaryOS.Model.Effect
import RaryOS.Model.Idt

/-! # Interrupts and the stubs of `boot.s`

The processor pushes the interrupted state and enters the stub of the vector. The stub pushes the number and the
general registers, so that the stack holds a `struct regs`, calls the C function with its address, and restores
everything. A called C function is a parameter: any change of the machine that meets what is assumed of it.
-/

namespace RaryOS.Model

open RaryOS.Core

/-- The general registers other than the stack pointer. -/
inductive Reg where
  | rax
  | rcx
  | rdx
  | rbx
  | rbp
  | rsi
  | rdi
  | r8
  | r9
  | r10
  | r11
  | r12
  | r13
  | r14
  | r15
deriving DecidableEq, Repr

structure Cpu where
  regs : Reg → BitVec 64
  rip : BitVec 64
  cs : BitVec 16
  rflags : BitVec 64
  ss : BitVec 16
  stack : CallStack

namespace Cpu

/-- The current privilege level. -/
def cpl (c : Cpu) : BitVec 2 := c.cs.setWidth 2

def setReg (c : Cpu) (r : Reg) (value : BitVec 64) : Cpu :=
  { c with regs := Function.update c.regs r value }

/-- The flags that an interrupt gate clears: TF, IF, NT, RF and VM. -/
def gateFlags : BitVec 64 := 1 <<< 8 ||| 1 <<< 9 ||| 1 <<< 14 ||| 1 <<< 16 ||| 1 <<< 17

/-- The state that the processor pushes, and the error code if the vector has one. -/
def returnFrame (c : Cpu) (error : Option (BitVec 64)) : List (BitVec 64) :=
  [c.ss.setWidth 64, c.stack.sp, c.rflags, c.cs.setWidth 64, c.rip] ++ error.toList

/-- The stack of the handler: that of the task state segment if the privilege level changes, aligned to 16 bytes. -/
def interruptStack (c : Cpu) (rsp0 : BitVec 64) : BitVec 64 :=
  (if c.cpl = 0 then c.stack.sp else rsp0) &&& ~~~0xF

/-- The processor goes through an interrupt gate to the kernel. -/
def deliver (c : Cpu) (gate : Gate) (rsp0 : BitVec 64) (error : Option (BitVec 64)) : Cpu :=
  { c with
    rip := gate.offset
    cs := gate.selector
    rflags := c.rflags &&& ~~~gateFlags
    ss := if c.cpl = 0 then c.ss else 0
    stack := (CallStack.mk c.stack.mem (c.interruptStack rsp0)).pushAll (c.returnFrame error) }

/-- `iretq`. -/
def iretq (c : Cpu) : Cpu :=
  let word (k : ℕ) := BitVec.ofNat 64 (c.stack.mem.load64 (c.stack.sp.toNat + 8 * k))
  { c with
    rip := word 0
    cs := (word 1).setWidth 16
    rflags := word 2
    ss := (word 4).setWidth 16
    stack := { c.stack with sp := word 3 } }

end Cpu

/-- The vectors for which the processor pushes an error code. -/
def pushesError (v : BitVec 8) : Bool :=
  v.toNat ∈ [8, 10, 11, 12, 13, 14, 17, 21, 29, 30]

/-! ## The stubs -/

/-- The instructions that the stubs are made of. -/
inductive Instr where
  | push (r : Reg)
  | pushImm (value : BitVec 64)
  | movRspRdi
  | call
  | pop (r : Reg)
  | addRsp (value : BitVec 64)
  | iretq
deriving DecidableEq, Repr

/-- One instruction, where `callee` is what the called function does until it has returned. -/
def Instr.run (callee : Cpu → Cpu) (c : Cpu) : Instr → Cpu
  | push r => { c with stack := c.stack.push (c.regs r) }
  | pushImm value => { c with stack := c.stack.push value }
  | movRspRdi => c.setReg .rdi c.stack.sp
  | call => callee c
  | pop r => { c.setReg r c.stack.top with stack := c.stack.drop }
  | addRsp value => { c with stack := { c.stack with sp := c.stack.sp + value } }
  | iretq => c.iretq

/-- A stretch of instructions. -/
def runInstrs (callee : Cpu → Cpu) (code : List Instr) (c : Cpu) : Cpu := code.foldl (Instr.run callee) c

/-- The registers that the stubs save, in this order. -/
def savedRegs : List Reg := [.rax, .rcx, .rdx, .rbx, .rbp, .rsi, .rdi, .r8, .r9, .r10, .r11, .r12, .r13, .r14, .r15]

/-- `isr_common` and `irq_common`, which differ in the function that they call. -/
def interruptCommon : List Instr :=
  savedRegs.map .push ++ [.movRspRdi, .call] ++ savedRegs.reverse.map .pop ++ [.addRsp 16, .iretq]

/-- `isr_common`. -/
def isrCommon : List Instr := interruptCommon

/-- `irq_common`. -/
def irqCommon : List Instr := interruptCommon

/-- `ISR_NOERR`. -/
def isrNoErr (num : BitVec 64) : List Instr := [.pushImm 0, .pushImm num] ++ isrCommon

/-- `ISR_ERR`. -/
def isrErr (num : BitVec 64) : List Instr := [.pushImm num] ++ isrCommon

/-- `IRQ_STUB`. -/
def irqStub (num : BitVec 64) : List Instr := [.pushImm 0, .pushImm num] ++ irqCommon

/-- The vectors that `boot.s` gives to `ISR_ERR`. -/
def isrErrVectors : List ℕ := [8, 10, 11, 12, 13, 14, 17, 21, 29, 30]

/-- The code of a stub. -/
def Stub.code : Stub → List Instr
  | isr num => if num.toNat ∈ isrErrVectors then isrErr (num.setWidth 64) else isrNoErr (num.setWidth 64)
  | irq num => irqStub (num.setWidth 64)

/-- An interrupt, from its delivery until its stub has returned: the gate is read from the table, and `code` is what
lies at an address. Without a gate there is none. -/
def Cpu.throughGate (c : Cpu) (code : BitVec 64 → List Instr) (callee : Cpu → Cpu) (idt : ℕ) (rsp0 : BitVec 64)
    (v : BitVec 8) (error : Option (BitVec 64)) : Option Cpu :=
  let gate := Gate.read c.stack.mem (idt + 16 * v.toNat)
  if gate.present ∧ gate.type = 0xE then some (runInstrs callee (code gate.offset) (c.deliver gate rsp0 error))
  else none

/-- An interrupt of a device or an exception. -/
def Cpu.takeInterrupt (c : Cpu) (code : BitVec 64 → List Instr) (callee : Cpu → Cpu) (idt : ℕ) (rsp0 : BitVec 64)
    (v : BitVec 8) (error : BitVec 64) : Option Cpu :=
  c.throughGate code callee idt rsp0 v (if pushesError v then some error else none)

/-- The instruction `int`. The gate must be open to the privilege level. -/
def Cpu.int (c : Cpu) (code : BitVec 64 → List Instr) (callee : Cpu → Cpu) (idt : ℕ) (rsp0 : BitVec 64)
    (v : BitVec 8) : Option Cpu :=
  if c.cpl.toNat ≤ (Gate.read c.stack.mem (idt + 16 * v.toNat)).dpl.toNat then
    c.throughGate code callee idt rsp0 v none
  else none

/-! ## The saved registers -/

/-- The words of a `struct regs`, in the order of its fields. -/
def regsWords (regs : Reg → BitVec 64) (vector error : BitVec 64) (c : Cpu) : List (BitVec 64) :=
  [regs .r15, regs .r14, regs .r13, regs .r12, regs .r11, regs .r10, regs .r9, regs .r8, regs .rdi, regs .rsi,
    regs .rbp, regs .rbx, regs .rdx, regs .rcx, regs .rax, vector, error, c.rip, c.cs.setWidth 64, c.rflags,
    c.stack.sp, c.ss.setWidth 64]

/-- The offset of `rax` in `struct regs`. -/
def regsRax : ℕ := 112

/-- The fields of a `struct regs` that `exception_handler` uses for a system call. -/
def Regs.read (m : Memory) (address : ℕ) : Regs where
  rax := BitVec.ofNat 64 (m.load64 (address + regsRax))
  rdi := BitVec.ofNat 64 (m.load64 (address + 64))
  rsi := BitVec.ofNat 64 (m.load64 (address + 72))
  rdx := BitVec.ofNat 64 (m.load64 (address + 96))
  rcx := BitVec.ofNat 64 (m.load64 (address + 104))
  vector := BitVec.ofNat 64 (m.load64 (address + 120))

end RaryOS.Model
