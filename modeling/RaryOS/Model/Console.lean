import RaryOS.Core.Memory
import RaryOS.Model.Effect
import RaryOS.Model.Input
import RaryOS.Model.Terminal

/-! # The console

What `effect_core_handler` does to the terminal and to the input buffer. The memory is the program's: its buffers lie
apart from the kernel's own objects. A call comes through an interrupt gate, so no interrupt meets it, only while
`EFF_READ` waits: there the call is not made before there is input. `acpi_shutdown` and `acpi_reboot` do not return.
-/

namespace RaryOS.Model

open RaryOS.Core

structure Console where
  memory : Memory
  terminal : Terminal
  input : InputBuffer
  pitTicks : BitVec 64 := 0

/-- `p[0]` to `p[len - 1]`. -/
def programBytes (m : Memory) (p : BitVec 64) (len : ℕ) : List (BitVec 8) :=
  (List.range len).map fun k => m (p + BitVec.ofNat 64 k).toNat

namespace Console

/-- `terminal_write`. -/
def terminalWrite (w : Console) (data size : BitVec 64) : Console :=
  { w with terminal := w.terminal.write (programBytes w.memory data size.toNat) }

/-- The second loop of `EFF_READ`, with `len - got` characters to go. -/
def readInput (buf : BitVec 64) : ℕ → Console → ℕ → Console × ℕ
  | 0, w, got => (w, got)
  | left + 1, w, got =>
    if inputAvailable w.input then
      let (input, c) := inputPop w.input
      let memory := w.memory.store8 (buf + BitVec.ofNat 64 got).toNat (BitVec.ofInt 8 c)
      readInput buf left { w with input, memory } (got + 1)
    else (w, got)

/-- `EFF_READ`. -/
def read (w : Console) (buf len : BitVec 64) : Option (Console × BitVec 64) :=
  if inputAvailable w.input then
    let (w, got) := readInput buf len.toNat w 0
    some (w, BitVec.ofNat 64 got)
  else none

/-- What `effect_core_handler` calls, where `fill` fills the system information. -/
def services (fill : Memory → BitVec 64 → Memory) : CoreServices Console where
  terminalWrite := terminalWrite
  read := read
  clearTerminal w := { w with terminal := w.terminal.clear }
  pitTicks := pitTicks
  acpiShutdown _ := none
  acpiReboot _ := none
  fillSysInfo w info := { w with memory := fill w.memory info }

end Console

end RaryOS.Model
