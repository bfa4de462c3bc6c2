import RaryOS.Model.Interrupts

/-! # Segments, the task state segment and the way into user mode

`boot_main` puts a descriptor of the task state segment over two blank entries of the descriptor table, and
`jump_to_user` leaves the kernel by `iretq`.
-/

namespace RaryOS.Model

open RaryOS.Core

/-- `gdt64` as it is linked. -/
def gdt64 : List (BitVec 64) :=
  [0, 0x00209A0000000000, 0x0000920000000000, 0, 0, 0x0020F20000000000, 0x0020FA0000000000]

/-- Loop 4 of `boot_main`. -/
def tssClear (tss : ℕ) : (count : ℕ) → Memory → Memory
  | 0, m => m
  | ecx + 1, m => (tssClear tss ecx m).store32 (tss + 4 * ecx) 0

/-- The end of `boot_main`: the task state segment and its descriptor. -/
def bootMainTss (m : Memory) (gdt tss : ℕ) (stackKernelTop : BitVec 32) : Memory :=
  let m := tssClear tss 26 m
  let m := m.store32 (tss + 4) stackKernelTop.toNat
  let m := m.store32 (tss + 8) 0
  let m := m.store (tss + 102) 2 104
  let edi := gdt + 24
  let ebx : BitVec 32 := BitVec.ofNat 32 tss
  let m := m.store edi 2 103
  let m := m.store (edi + 2) 2 (ebx.setWidth 16).toNat
  let m := m.store8 (edi + 4) ((ebx >>> 16).setWidth 8)
  let m := m.store8 (edi + 5) 0x89
  let m := m.store8 (edi + 6) 0
  let m := m.store8 (edi + 7) ((ebx >>> 24).setWidth 8)
  let m := m.store32 (edi + 8) 0
  m.store32 (edi + 12) 0

/-- What the processor uses of a segment descriptor in 64-bit mode. -/
structure Segment where
  type : BitVec 4
  codeOrData : Bool
  dpl : BitVec 2
  present : Bool
  long : Bool
deriving DecidableEq, Repr

/-- The descriptor that a selector names. -/
def Segment.read (m : Memory) (gdt : ℕ) (selector : BitVec 16) : Segment :=
  let entry := gdt + 8 * (selector.toNat / 8)
  { type := (m (entry + 5)).extractLsb' 0 4
    codeOrData := (m (entry + 5)).getLsbD 4
    dpl := (m (entry + 5)).extractLsb' 5 2
    present := (m (entry + 5)).getLsbD 7
    long := (m (entry + 6)).getLsbD 5 }

/-- The base of a system segment, whose descriptor has 16 bytes. -/
def systemBase (m : Memory) (entry : ℕ) : BitVec 64 :=
  BitVec.ofNat 32 (m.load32 (entry + 8)) ++ (m (entry + 7) ++ (m (entry + 4) ++ BitVec.ofNat 16 (m.load (entry + 2) 2)))

/-- Its limit. -/
def systemLimit (m : Memory) (entry : ℕ) : BitVec 20 :=
  (m (entry + 6)).extractLsb' 0 4 ++ BitVec.ofNat 16 (m.load entry 2)

/-- The stack pointer of the kernel in a task state segment. -/
def tssRsp0 (m : Memory) (tss : ℕ) : BitVec 64 := BitVec.ofNat 64 (m.load64 (tss + 4))

/-- Whether a program of user mode may use a port: by its I/O privilege level, or by the bit map in the task state
segment, as far as that reaches. -/
def portAllowed (m : Memory) (tss : ℕ) (limit : BitVec 20) (rflags : BitVec 64) (port : BitVec 16) : Bool :=
  let place := m.load (tss + 102) 2 + port.toNat / 8
  (rflags.extractLsb' 12 2 = 3) || (place + 1 ≤ limit.toNat && !(m (tss + place)).getLsbD (port.toNat % 8))

/-- `mov $value, %ax`: the rest of `rax` stays. -/
def Cpu.setAx (c : Cpu) (value : BitVec 16) : Cpu :=
  c.setReg .rax ((c.regs .rax).extractLsb' 16 48 ++ value)

/-- The `asm` of `jump_to_user` without the data segment registers, when the compiler has put the operand
`stack_top` into one register and `entry` into another. It is not told that `rax` changes. -/
def enterUser (c : Cpu) (stackTop entry : Reg) : Cpu :=
  let c := { c with rflags := c.rflags &&& ~~~(1#64 <<< 9) }
  let c := c.setAx 0x2B
  ({ c with stack := c.stack.pushAll [0x2B, c.regs stackTop, 0x202, 0x33, c.regs entry] } : Cpu).iretq

end RaryOS.Model
