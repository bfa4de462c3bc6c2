import RaryOS.Model.ControlTransfer
import RaryOS.Model.HidKeyboard
import RaryOS.Model.Xhci

/-! # Setting up the keyboard

`setup_keyboard` sends commands and control requests and waits for each of them. What comes back is up to the
controller and the device: the event ring as every poll finds it, and the bytes of the two descriptors. The
contents of the input context are for the controller only; here a command has its address.
-/

namespace RaryOS.Model

open RaryOS.Core

/-- The event ring, for the number of polls that are left. -/
abbrev PolledRing := ℕ → ℕ → Trb

/-- The answers to `setup_keyboard`, in order. -/
structure SetupAnswers where
  enableSlot : PolledRing
  addressDevice : PolledRing
  deviceDescriptor : PolledRing
  deviceBytes : Memory
  configDescriptor : PolledRing
  configBytes : Memory
  setConfiguration : PolledRing
  setProtocol : PolledRing
  setIdle : PolledRing
  configureEndpoint : PolledRing

/-- The fields of `XhciController` that `setup_keyboard` involves. `ctrlBuf` is the memory from `ctrl_buf` on. -/
structure SetupState where
  x : Xhci
  cmdRing : ℕ → Trb
  cmdRingPhys : ℕ
  cmd : RingProducer
  ep0Ring : ℕ → Trb
  ep0RingPhys : ℕ
  ep0 : RingProducer
  inputCtxPhys : ℕ
  ctrlBuf : Memory
  ctrlBufPhys : BitVec 64
  hidInterface : ℕ := 0

namespace Xhci

/-- The loop of `wait_cmd` and of `wait_xfer` while the controller writes the event ring. -/
def waitAnswered (poll : Xhci → Xhci × Option Trb) (ring : PolledRing) : (polls : ℕ) → Xhci → Xhci × Option Trb
  | 0, x => (x, none)
  | polls + 1, x =>
    match poll { x with evtRing := ring polls } with
    | (x, some e) => (x, some e)
    | (x, none) => waitAnswered poll ring polls x

/-- `wait_cmd` with the answer of the controller. -/
def awaitCmd (x : Xhci) (cmdPhys : ℕ) (answer : PolledRing) : Xhci × Option Trb :=
  x.waitAnswered (waitCmdPoll cmdPhys) answer waitPolls

/-- `wait_xfer` with the answer of the controller. -/
def awaitXfer (x : Xhci) (trbPhys : ℕ) (answer : PolledRing) : Xhci × Option Trb :=
  x.waitAnswered (waitXferPoll trbPhys) answer waitPolls

/-- A doorbell. -/
def ringDoorbell (x : Xhci) (slot value : ℕ) : Xhci := { x with mmio := x.mmio ++ [(.doorbell slot, value)] }

end Xhci

/-- `ctrl_buf[2] | (ctrl_buf[3] << 8)`. -/
def configTotal (ctrlBuf : Memory) : ℕ := (ctrlBuf 2).toNat ||| (ctrlBuf 3).toNat <<< 8

namespace SetupState

/-- `submit_cmd` and its `wait_cmd`: the completion code, and `out_slot`. -/
def submitCmd (s : SetupState) (type param slotId : ℕ) (answer : PolledRing) : SetupState × ℤ × Option ℕ :=
  let queued := RaryOS.Model.submitCmd s.cmd type param 0 slotId
  let phys := (s.cmdRingPhys + (queued.2.idx - 1) * 16) % 2 ^ 64
  let waited := (s.x.ringDoorbell 0 0).awaitCmd phys answer
  ({ s with x := waited.1, cmdRing := applyStores queued.1 s.cmdRing, cmd := queued.2 }, waitCode waited.2,
    waited.2.map fun e => e.control / 2 ^ 24 % 2 ^ 8)

/-- `control_xfer` and its `wait_xfer`. -/
def controlXfer (s : SetupState) (slot : ℕ) (r : ControlRequest) (answer : PolledRing) : SetupState × ℤ :=
  match RaryOS.Model.controlXfer s.ep0 r with
  | none => (s, -1)
  | some (stores, ep0, status) =>
    let phys := (s.ep0RingPhys + status * 16) % 2 ^ 64
    let waited := (s.x.ringDoorbell slot 1).awaitXfer phys answer
    ({ s with x := waited.1, ep0Ring := applyStores stores s.ep0Ring, ep0 := ep0 }, waitCode waited.2)

/-- `enable_slot`. -/
def enableSlot (s : SetupState) (answer : PolledRing) : SetupState × ℤ :=
  let (s, rc, slot) := s.submitCmd xhciTrbEnableSlot 0 0 answer
  (s, if rc ≠ 1 then -1 else (slot.getD 0 : ℕ))

/-- `address_device`. -/
def addressDevice (s : SetupState) (slot : ℕ) (answer : PolledRing) : SetupState × ℤ :=
  let s := { s with ep0Ring := ep0InitRing, ep0 := ep0Init }
  let (s, rc, _) := s.submitCmd xhciTrbAddressDev s.inputCtxPhys slot answer
  (s, if rc ≠ 1 then -1 else 0)

/-- `get_descriptor` into `ctrl_buf`, with the bytes that the device sends. -/
def getDescriptor (s : SetupState) (slot : ℕ) (type idx : BitVec 8) (len : BitVec 16) (bytes : Memory)
    (answer : PolledRing) : SetupState × ℤ :=
  let (s, rc) := s.controlXfer slot (.getDescriptor type idx s.ctrlBufPhys len) answer
  ({ s with ctrlBuf := fun i => if i < len.toNat then bytes i else s.ctrlBuf i }, rc)

/-- `configure_endpoint`. -/
def configureEndpoint (s : SetupState) (slot : ℕ) (answer : PolledRing) : SetupState × ℤ :=
  let s := { s with x := { s.x with intrRing := configureEndpointRing, intr := {} } }
  let (s, rc, _) := s.submitCmd xhciTrbConfigEp s.inputCtxPhys slot answer
  (s, if rc ≠ 1 then -1 else 0)

/-- `setup_keyboard` after the endpoint was found. -/
def configureKeyboard (s : SetupState) (slot : ℕ) (k : HidKeyboard) (a : SetupAnswers) : SetupState × ℤ :=
  let (s, rc) := s.controlXfer slot (.setConfiguration (s.ctrlBuf 5)) a.setConfiguration
  if rc ≠ 1 then (s, -1)
  else
    let (s, _) := s.controlXfer slot (.setProtocolBoot (.ofNat 8 k.iface)) a.setProtocol
    let (s, _) := s.controlXfer slot (.setIdle (.ofNat 8 k.iface)) a.setIdle
    let s :=
      { s with
        x := { s.x with hidEpNum := k.epAddr &&& 0x0F, hidEpMps := k.mps }
        hidInterface := k.iface }
    let (s, rc) := s.configureEndpoint slot a.configureEndpoint
    if rc ≠ 0 then (s, -1)
    else ({ s with x := { s.x with prevKeys := List.replicate 6 0, intrBuf := fun _ => 0 } }, slot)

/-- `setup_keyboard`. The walk over the descriptor always returns. -/
def setupKeyboard (s : SetupState) (a : SetupAnswers) : SetupState × ℤ :=
  let (s, rc) := s.enableSlot a.enableSlot
  if rc < 0 then (s, -1)
  else
    let slot := rc.toNat % 2 ^ 8
    let (s, rc) := s.addressDevice slot a.addressDevice
    if rc ≠ 0 then (s, -1)
    else
      let (s, rc) := s.getDescriptor slot 0x01 0 18 a.deviceBytes a.deviceDescriptor
      if rc ≠ 1 then (s, -1)
      else
        let (s, rc) := s.getDescriptor slot 0x02 0 256 a.configBytes a.configDescriptor
        if rc ≠ 1 then (s, -1)
        else
          match findHidKeyboard s.ctrlBuf (configTotal s.ctrlBuf) with
          | some (0, k) => s.configureKeyboard slot k a
          | _ => (s, -1)

end SetupState

end RaryOS.Model
