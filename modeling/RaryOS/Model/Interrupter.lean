import RaryOS.Model.Xhci
import RaryOS.Model.XhciCaps

/-! # The interrupter

The first interrupter of the controller tells the driver of events by messages. It is busy from the moment it notices
an event until the driver writes `ERDP` with the busy bit, and notices nothing while it is busy. `enable_interrupter`
lets it send messages.
-/

namespace RaryOS.Model

def xhciUsbcmdInte : ℕ := 1 <<< 2

/-- The registers that matter to the interrupter. -/
inductive InterrupterReg where
  | usbcmd
  | imod
  | driver (reg : XhciReg)
deriving DecidableEq, Repr

/-- A register write. -/
abbrev InterrupterWrite := InterrupterReg × ℕ

/-- `enable_interrupter`, for what the command register holds. -/
def enableInterrupter (cmd : ℕ) : List InterrupterWrite :=
  [(.usbcmd, cmd ||| xhciUsbcmdRs ||| xhciUsbcmdInte), (.driver .usbsts, xhciUsbstsEint), (.imod, 0),
    (.driver .iman, 1), (.driver .iman, 2)]

/-- The interrupter after a reset: the address in `ERDP` and its busy bit, the two bits of `IMAN`, the interval of
`IMOD`, the enable bit of the command register, and whether a message is out that the processor has not taken. -/
structure Interrupter where
  erdp : ℕ := 0
  busy : Bool := false
  pending : Bool := false
  enabled : Bool := false
  interval : ℕ := 4000
  inte : Bool := false
  message : Bool := false
deriving DecidableEq, Repr

namespace Interrupter

/-- A pending interrupt that is enabled becomes a message. -/
def send (i : Interrupter) : Interrupter :=
  if i.pending && i.enabled && i.inte then { i with pending := false, message := true } else i

/-- The interrupter looks at the ring, whose next entry the controller puts at `next`. -/
def raise (i : Interrupter) (next : ℕ) : Interrupter :=
  if i.busy || i.erdp = next then i else { i with busy := true, pending := true : Interrupter }.send

/-- It does so at once unless interrupts are moderated. -/
def notice (i : Interrupter) (next : ℕ) : Interrupter := if i.interval = 0 then i.raise next else i

/-- A write of the driver. -/
def write (i : Interrupter) (next : ℕ) (w : InterrupterWrite) : Interrupter :=
  match w.1 with
  | .usbcmd => { i with inte := w.2.testBit 2 : Interrupter }.send
  | .imod => { i with interval := w.2 % 2 ^ 16 : Interrupter }.notice next
  | .driver .iman => { i with pending := i.pending && !w.2.testBit 0, enabled := w.2.testBit 1 : Interrupter }.send
  | .driver .erdpLow =>
    { i with
      erdp := i.erdp / 2 ^ 32 * 2 ^ 32 + w.2 % 2 ^ 32 / 16 * 16
      busy := i.busy && !w.2.testBit 3 : Interrupter }.notice next
  | .driver .erdpHigh => { i with erdp := w.2 * 2 ^ 32 + i.erdp % 2 ^ 32 : Interrupter }.notice next
  | .driver .usbsts => i
  | .driver (.doorbell _) => i

end Interrupter

end RaryOS.Model
