import RaryOS.Model.Xhci

/-! # Interrupt requests

`irq_dispatch` acknowledges an interrupt at the controllers that it came through and then calls the handler of its
vector, if there is one. The table of handlers is a parameter of the handlers that are put into it; the writes to
the controllers are recorded.
-/

namespace RaryOS.Model

/-- A write to a port or to a register in memory. -/
inductive DeviceWrite where
  | outb (port : BitVec 16) (value : BitVec 8)
  | mmio (address : ℕ) (value : BitVec 32)
deriving DecidableEq, Repr

/-- `irq_entry_t`. -/
structure IrqEntry (H : Type*) where
  handler : Option H := none
  name : Option String := none
  count : BitVec 64 := 0

/-- `irq_table`, what was written to the interrupt controllers, and what the handlers work on. -/
structure IrqState (H σ : Type*) where
  table : BitVec 8 → IrqEntry H
  writes : List DeviceWrite := []
  world : σ

section Irq

variable {H σ : Type*}

/-- The entry of a vector is replaced. -/
def IrqState.setEntry (s : IrqState H σ) (vector : BitVec 8) (entry : IrqEntry H) : IrqState H σ :=
  { s with table := fun v => if v = vector then entry else s.table v }

/-- `irq_init`. -/
def irqInit (s : IrqState H σ) : IrqState H σ := { s with table := fun _ => {} }

/-- `irq_register`. -/
def irqRegister (s : IrqState H σ) (vector : BitVec 8) (handler : H) (name : String) : IrqState H σ × ℤ :=
  if (s.table vector).handler.isSome then (s, -1)
  else (s.setEntry vector { handler := some handler, name := some name, count := 0 }, 0)

/-- `irq_unregister`. The count stays. -/
def irqUnregister (s : IrqState H σ) (vector : BitVec 8) : IrqState H σ :=
  s.setEntry vector { s.table vector with handler := none, name := none }

def lapicEoiRegister : ℕ := 0xFEE000B0

/-- The end of interrupt that `irq_dispatch` sends for a vector. -/
def irqEoi (v : BitVec 8) : List DeviceWrite :=
  if 32 ≤ v ∧ v < 48 then (if 40 ≤ v then [.outb 0xA0 0x20] else []) ++ [.outb 0x20 0x20]
  else if 48 ≤ v then [.mmio lapicEoiRegister 0]
  else []

/-- `irq_dispatch`, where `run` is what a handler does. -/
def irqDispatch (run : H → σ → σ × List DeviceWrite) (s : IrqState H σ) (vector : BitVec 64) : IrqState H σ :=
  let v := vector.setWidth 8
  let s := { s with writes := s.writes ++ irqEoi v }
  match (s.table v).handler with
  | none => s
  | some handler =>
    let s := s.setEntry v { s.table v with count := (s.table v).count + 1 }
    let (world, writes) := run handler s.world
    { s with world, writes := s.writes ++ writes }

/-- `irq_get_count`. -/
def irqGetCount (s : IrqState H σ) (vector : BitVec 8) : BitVec 64 := (s.table vector).count

end Irq

/-! ## The handlers of the kernel -/

/-- `keyboard_map`, up to its last entry that is not zero. -/
def keyboardMap : List ℕ :=
  [0, 27] ++ ['1', '2', '3', '4', '5', '6', '7', '8', '9', '0', '-', '='].map Char.toNat ++ [8] ++
  [9] ++ ['q', 'w', 'e', 'r', 't', 'y', 'u', 'i', 'o', 'p', '[', ']', '\n'].map Char.toNat ++
  [0] ++ ['a', 's', 'd', 'f', 'g', 'h', 'j', 'k', 'l', ';'].map Char.toNat ++ [0x27, 0x60, 0] ++
  ['\\', 'z', 'x', 'c', 'v', 'b', 'n', 'm', ',', '.', '/'].map Char.toNat ++ [0, '*'.toNat, 0, ' '.toNat]

/-- The handlers that the kernel registers. -/
inductive KernelHandler where
  | pit
  | ps2Keyboard
  | lapicTimer
  | usb
deriving DecidableEq, Repr

/-- What they work on: the tick counts, the byte at the keyboard's data port, and the USB driver with the buffer for
input. -/
structure KernelWorld where
  pitTicks : BitVec 64 := 0
  lapicTicks : BitVec 64 := 0
  port60 : BitVec 8 := 0
  xhci : Xhci

/-- `ps2_keyboard_handler` for the scancode that it reads. -/
def ps2KeyboardHandler (input : InputBuffer) (scancode : BitVec 8) : InputBuffer :=
  if 0x80 ≤ scancode.toNat then input
  else if 0 < scancode.toNat ∧ scancode.toNat < 58 then
    let asciiChar := keyboardMap.getD scancode.toNat 0
    if asciiChar ≠ 0 then inputPush input asciiChar else input
  else input

/-- `pit_handler`, `ps2_keyboard_handler`, `lapic_timer_handler` and `usb_handler_c`. -/
def KernelHandler.run (h : KernelHandler) (w : KernelWorld) : KernelWorld × List DeviceWrite :=
  match h with
  | .pit => ({ w with pitTicks := w.pitTicks + 1 }, [])
  | .ps2Keyboard => ({ w with xhci := { w.xhci with input := ps2KeyboardHandler w.xhci.input w.port60 } }, [])
  | .lapicTimer => ({ w with lapicTicks := w.lapicTicks + 1 }, [.mmio lapicEoiRegister 0])
  | .usb => ({ w with xhci := w.xhci.handleInterrupt }, [])

end RaryOS.Model
