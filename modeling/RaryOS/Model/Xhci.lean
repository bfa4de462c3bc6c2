import Mathlib.Data.Int.Notation
import RaryOS.Model.Input
import RaryOS.Model.XhciRings

/-! # The event side of the xHCI driver

The controller posts events on a ring of 256 entries. Three functions consume them with one index and
one cycle flag: `wait_cmd` and `wait_xfer` poll while the device is set up, `handle_interrupt` runs
afterwards, and looks at the keyboard when a transfer has completed. `mmio` lists the register writes,
the last one at the end.
-/

namespace RaryOS.Model

/-- The registers that are written here. -/
inductive XhciReg where
  | usbsts
  | iman
  | erdpLow
  | erdpHigh
  | doorbell (slot : ℕ)
deriving DecidableEq, Repr

def xhciUsbstsEint : ℕ := 1 <<< 3

/-- The fields of `XhciController` and the static variables of the driver that handling events
involves. -/
structure Xhci where
  evtRing : ℕ → Trb := fun _ => {}
  evtRingPhys : ℕ
  evtIdx : ℕ := 0
  evtCycle : ℕ := 1
  intrRing : ℕ → Trb := configureEndpointRing
  intrRingPhys : ℕ := 0
  intr : RingProducer := {}
  intrBuf : ℕ → ℕ := fun _ => 0
  intrBufPhys : ℕ := 0
  prevKeys : List ℕ := List.replicate 6 0
  hidEpNum : ℕ := 0
  hidEpMps : ℕ := 0
  usbActiveSlot : ℕ := 0
  isrCount : ℕ := 0
  keysCount : ℕ := 0
  pushCount : ℕ := 0
  badCodeCount : ℕ := 0
  xferPending : Bool := false
  input : InputBuffer := {}
  mmio : List (XhciReg × ℕ) := []

/-- `hid_key_to_ascii`. -/
def hidKeyToAscii (k : ℕ) : ℕ :=
  if 0x04 ≤ k ∧ k ≤ 0x1D then 97 + (k - 0x04)
  else if 0x1E ≤ k ∧ k ≤ 0x26 then 49 + (k - 0x1E)
  else
    match k with
    | 0x27 => 48
    | 0x28 => 10
    | 0x29 => 27
    | 0x2A => 8
    | 0x2B => 9
    | 0x2C => 32
    | 0x2D => 45
    | 0x2E => 61
    | 0x2F => 91
    | 0x30 => 93
    | 0x31 => 92
    | 0x33 => 59
    | 0x34 => 39
    | 0x35 => 96
    | 0x36 => 44
    | 0x37 => 46
    | 0x38 => 47
    | _ => 0

/-- `(status >> 24) & 0xFF`. -/
def Trb.code (e : Trb) : ℕ := e.status / 2 ^ 24 % 2 ^ 8

/-- What `wait_cmd` and `wait_xfer` return: the completion code, or -1 for a timeout. -/
def waitCode : Option Trb → ℤ
  | some e => e.code
  | none => -1

namespace Xhci

/-- `setup_evt_ring`: a blank ring, and `ERDP` at its first entry. -/
def setupEvtRing (x : Xhci) (evtRingPhys : ℕ) : Xhci :=
  { x with
    evtRing := fun _ => {}
    evtRingPhys := evtRingPhys
    evtIdx := 0
    evtCycle := 1
    mmio := x.mmio ++ [(.erdpLow, evtRingPhys % 2 ^ 32), (.erdpHigh, evtRingPhys / 2 ^ 32)] }

/-- `evt_advance`. -/
def evtAdvance (x : Xhci) : Xhci :=
  let evtIdx := x.evtIdx + 1
  let (evtIdx, evtCycle) :=
    if evtIdx = ringTrbs then (0, x.evtCycle ^^^ 1) else (evtIdx, x.evtCycle)
  let erdp := (x.evtRingPhys + evtIdx * 16) % 2 ^ 64
  { x with
    evtIdx := evtIdx
    evtCycle := evtCycle
    mmio := x.mmio ++ [(.erdpLow, erdp % 2 ^ 32 ||| 1 <<< 3), (.erdpHigh, erdp / 2 ^ 32)] }

/-- One poll of `wait_cmd` or `wait_xfer`: the event it waits for, if it is that one. An event of
another type than these three is left where it is. -/
def waitPoll (awaited other address : ℕ) (x : Xhci) : Xhci × Option Trb :=
  let e := x.evtRing x.evtIdx
  if e.cycle ≠ x.evtCycle then (x, none)
  else if e.type = awaited then
    (x.evtAdvance, if e.parameter = address then some e else none)
  else if e.type = xhciTrbPortsc ∨ e.type = other then (x.evtAdvance, none)
  else (x, none)

/-- An iteration of `wait_cmd`. -/
def waitCmdPoll (cmdPhys : ℕ) : Xhci → Xhci × Option Trb := waitPoll xhciTrbCmdCmpl xhciTrbXferEvt cmdPhys

/-- An iteration of `wait_xfer`. -/
def waitXferPoll (trbPhys : ℕ) : Xhci → Xhci × Option Trb := waitPoll xhciTrbXferEvt xhciTrbCmdCmpl trbPhys

/-- The iterations that `wait_cmd` and `wait_xfer` make at most. -/
def waitPolls : ℕ := 20000000

/-- The loop of `wait_cmd` and of `wait_xfer`, with `polls` iterations left: the event it waits for. -/
def waitEvents (poll : Xhci → Xhci × Option Trb) : (polls : ℕ) → Xhci → Xhci × Option Trb
  | 0, x => (x, none)
  | polls + 1, x =>
    match poll x with
    | (x, some e) => (x, some e)
    | (x, none) => waitEvents poll polls x

/-- `wait_cmd`: its result, and `out_slot`. -/
def waitCmd (cmdPhys : ℕ) (x : Xhci) : Xhci × ℤ × Option ℕ :=
  let (x, e) := waitEvents (waitCmdPoll cmdPhys) waitPolls x
  (x, waitCode e, e.map fun e => e.control / 2 ^ 24 % 2 ^ 8)

/-- `wait_xfer`: its result, and `out_len`. -/
def waitXfer (trbPhys : ℕ) (x : Xhci) : Xhci × ℤ × Option ℕ :=
  let (x, e) := waitEvents (waitXferPoll trbPhys) waitPolls x
  (x, waitCode e, e.map fun e => e.status % 2 ^ 24)

/-- One key code of `process_keys`. -/
def processKey (x : Xhci) (k : ℕ) : Xhci :=
  if k = 0 ∨ k ∈ x.prevKeys then x
  else
    let x := { x with keysCount := x.keysCount + 1 }
    let c := hidKeyToAscii k
    if c ≠ 0 then { x with input := inputPush x.input c, pushCount := x.pushCount + 1 } else x

/-- `process_keys(intr_buf)`: six key codes from byte 2 on. -/
def processKeys (x : Xhci) : Xhci :=
  let keys := (List.range 6).map fun i => x.intrBuf (2 + i)
  { keys.foldl processKey x with prevKeys := keys }

/-- `queue_interrupt_in_async`. -/
def queueInterruptInAsync (x : Xhci) (slot : ℕ) : Xhci :=
  let (stores, intr) := queueInterruptIn x.intrRingPhys x.intrBufPhys x.hidEpMps x.intr
  { x with
    intrRing := applyStores stores x.intrRing
    intr := intr
    intrBuf := fun _ => 0
    mmio := x.mmio ++ [(.doorbell slot, x.hidEpNum * 2 + 1)] }

/-- The part of `run` that queues the first transfer, for the slot that `setup_keyboard` returned. -/
def armKeyboard (x : Xhci) (kbslot : ℕ) : Xhci :=
  let x := { x with usbActiveSlot := kbslot, xferPending := false }
  { x.queueInterruptInAsync (kbslot % 2 ^ 8) with xferPending := true }

/-- `if (code != 1) g_usb_bad_code_count++`. -/
def countCode (x : Xhci) (code : ℕ) : Xhci :=
  if code ≠ 1 then { x with badCodeCount := x.badCodeCount + 1 } else x

/-- An iteration of the loop of `handle_interrupt`, with whether a transfer of the keyboard was seen;
`none` leaves the loop. -/
def handleEvent (x : Xhci) : Option (Xhci × Bool) :=
  let e := x.evtRing x.evtIdx
  if e.cycle ≠ x.evtCycle then none
  else if e.type = xhciTrbXferEvt then
    let code := e.status / 2 ^ 24 % 2 ^ 8
    let epid := e.control / 2 ^ 16 % 2 ^ 5
    let x := x.evtAdvance.countCode code
    if epid = x.hidEpNum * 2 + 1 then some (x.processKeys, true) else some (x, false)
  else if e.type = xhciTrbPortsc ∨ e.type = xhciTrbCmdCmpl then some (x.evtAdvance, false)
  else none

/-- The loop of `handle_interrupt`, with `budget` iterations left. -/
def handleEvents : (budget : ℕ) → Xhci → (gotXfer : Bool) → Xhci × Bool
  | 0, x, gotXfer => (x, gotXfer)
  | budget + 1, x, gotXfer =>
    match x.handleEvent with
    | none => (x, gotXfer)
    | some (x, keyboard) => handleEvents budget x (gotXfer || keyboard)

/-- `handle_interrupt` up to its loop. -/
def handleInterruptBegin (x : Xhci) : Xhci :=
  { x with
    isrCount := x.isrCount + 1
    mmio := x.mmio ++ [(.usbsts, xhciUsbstsEint), (.iman, 1)] }

/-- `handle_interrupt` after its loop: queue the next transfer of the keyboard. -/
def handleInterruptEnd (x : Xhci) (gotXfer : Bool) : Xhci :=
  let x := { x with xferPending := false }
  let x :=
    if gotXfer ∧ 0 < x.usbActiveSlot then
      { x.queueInterruptInAsync (x.usbActiveSlot % 2 ^ 8) with xferPending := true }
    else x
  { x with mmio := x.mmio ++ [(.iman, 2)] }

def handleInterrupt (x : Xhci) : Xhci :=
  let (x, gotXfer) := handleEvents ringTrbs x.handleInterruptBegin false
  x.handleInterruptEnd gotXfer

end Xhci

end RaryOS.Model
