import RaryOS.Core.Memory

/-! # The interrupt descriptor table

`idt_set_gate` and `init_idt` as stores to memory, and what the processor reads there: the operand of `lidt` and a
gate. The addresses of the stubs in `boot.s` are parameters.
-/

namespace RaryOS.Model

open RaryOS.Core

/-- The entry points for interrupts that `boot.s` defines. -/
inductive Stub where
  | isr (num : BitVec 8)
  | irq (num : BitVec 8)
deriving DecidableEq, Repr

/-- `idt_set_gate`. An entry has 16 bytes. -/
def idtSetGate (idt : ℕ) (m : Memory) (num : BitVec 8) (base : BitVec 64) (sel : BitVec 16) (flags : BitVec 8) :
    Memory :=
  let entry := idt + 16 * num.toNat
  let m := m.store entry 2 ((base &&& 0xFFFF).setWidth 16).toNat
  let m := m.store (entry + 6) 2 (((base >>> 16) &&& 0xFFFF).setWidth 16).toNat
  let m := m.store (entry + 8) 4 (((base >>> 32) &&& 0xFFFFFFFF).setWidth 32).toNat
  let m := m.store (entry + 2) 2 sel.toNat
  let m := m.store8 (entry + 4) 0
  let m := m.store8 (entry + 5) flags
  m.store (entry + 12) 4 0

def idtEntries : ℕ := 256

def irqStubCount : ℕ := 48

/-- The processor's register for the table. -/
structure Idtr where
  limit : BitVec 16
  base : BitVec 64
deriving DecidableEq, Repr

/-- `idt_flush`: `lidt` loads the register from the 10 bytes of a packed `idt_ptr_t`. -/
def idtFlush (m : Memory) (idtPtr : ℕ) : Idtr where
  limit := BitVec.ofNat 16 (m.load idtPtr 2)
  base := BitVec.ofNat 64 (m.load (idtPtr + 2) 8)

/-- `init_idt`, where `symbol` gives the stubs' addresses: the memory, and what `lidt` has loaded. -/
def initIdt (symbol : Stub → BitVec 64) (idtPtr idt : ℕ) (m : Memory) : Memory × Idtr :=
  let m := m.store idtPtr 2 (16 * idtEntries - 1)
  let m := m.store (idtPtr + 2) 8 idt
  let m := (List.range idtEntries).foldl (fun m i => idtSetGate idt m (BitVec.ofNat 8 i) 0 0 0) m
  let m := (List.range 32).foldl
    (fun m i => idtSetGate idt m (BitVec.ofNat 8 i) (symbol (.isr (BitVec.ofNat 8 i))) 0x08 0x8E) m
  let m := (List.range irqStubCount).foldl
    (fun m i => idtSetGate idt m (BitVec.ofNat 8 (32 + i)) (symbol (.irq (BitVec.ofNat 8 (32 + i)))) 0x08 0x8E) m
  let m := idtSetGate idt m 0x80 (symbol (.isr 128)) 0x08 0xEE
  (m, idtFlush m idtPtr)

/-- A gate of the processor in 64-bit mode. -/
structure Gate where
  offset : BitVec 64
  selector : BitVec 16
  ist : BitVec 3
  type : BitVec 4
  dpl : BitVec 2
  present : Bool
deriving DecidableEq, Repr

/-- The gate whose 16 bytes are here. -/
def Gate.read (m : Memory) (entry : ℕ) : Gate where
  offset := BitVec.ofNat 32 (m.load (entry + 8) 4) ++ (BitVec.ofNat 16 (m.load (entry + 6) 2) ++
    BitVec.ofNat 16 (m.load entry 2))
  selector := BitVec.ofNat 16 (m.load (entry + 2) 2)
  ist := (m (entry + 4)).extractLsb' 0 3
  type := (m (entry + 5)).extractLsb' 0 4
  dpl := (m (entry + 5)).extractLsb' 5 2
  present := (m (entry + 5)).getLsbD 7

/-- The stub of a vector. -/
def stubOf (v : BitVec 8) : Option Stub :=
  if v.toNat < 32 then some (.isr v)
  else if v.toNat < 80 then some (.irq v)
  else if v = 0x80 then some (.isr 128)
  else none

/-- The gate of a vector: none, or an interrupt gate of the kernel's code segment to the stub. -/
def kernelGate (symbol : Stub → BitVec 64) (v : BitVec 8) : Gate :=
  (stubOf v).elim ⟨0, 0, 0, 0, 0, false⟩ fun stub => ⟨symbol stub, 0x08, 0, 0xE, if v = 0x80 then 3 else 0, true⟩

end RaryOS.Model
