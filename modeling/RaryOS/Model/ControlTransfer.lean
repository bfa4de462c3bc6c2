import Mathlib.Data.BitVec
import RaryOS.Model.XhciRings

/-! # Control transfers

A request on endpoint 0 is queued as a setup TRB, a data TRB unless the length is zero, and a status TRB.
The ring of the endpoint is used once only: the driver neither wraps around nor changes the cycle flag.
-/

namespace RaryOS.Model

def xhciTrbSetup : ℕ := 2
def xhciTrbData : ℕ := 3
def xhciTrbStatus : ℕ := 4

/-- The arguments of `control_xfer` other than the slot. -/
structure ControlRequest where
  bmRequestType : BitVec 8
  bRequest : BitVec 8
  wValue : BitVec 16
  wIndex : BitVec 16
  wLength : BitVec 16
  data : BitVec 64
  dirIn : BitVec 32
deriving DecidableEq, Repr

namespace ControlRequest

/-- `get_descriptor`. -/
def getDescriptor (type idx : BitVec 8) (buf : BitVec 64) (len : BitVec 16) : ControlRequest where
  bmRequestType := 0x80
  bRequest := 0x06
  wValue := type.setWidth 16 <<< 8 ||| idx.setWidth 16
  wIndex := 0
  wLength := len
  data := buf
  dirIn := 1

/-- `set_configuration`. -/
def setConfiguration (cfg : BitVec 8) : ControlRequest where
  bmRequestType := 0x00
  bRequest := 0x09
  wValue := cfg.setWidth 16
  wIndex := 0
  wLength := 0
  data := 0
  dirIn := 0

/-- `set_protocol_boot`. -/
def setProtocolBoot (iface : BitVec 8) : ControlRequest where
  bmRequestType := 0x21
  bRequest := 0x0B
  wValue := 0
  wIndex := iface.setWidth 16
  wLength := 0
  data := 0
  dirIn := 0

/-- `set_idle`. -/
def setIdle (iface : BitVec 8) : ControlRequest where
  bmRequestType := 0x21
  bRequest := 0x0A
  wValue := 0
  wIndex := iface.setWidth 16
  wLength := 0
  data := 0
  dirIn := 0

/-- `setup_param`. -/
def setupParam (r : ControlRequest) : ℕ :=
  r.bmRequestType.toNat ||| r.bRequest.toNat <<< 8 ||| r.wValue.toNat <<< 16 ||| r.wIndex.toNat <<< 32 |||
    r.wLength.toNat <<< 48

/-- `has_data`. -/
def hasData (r : ControlRequest) : Bool := r.wLength ≠ 0

/-- `trt`. -/
def trt (r : ControlRequest) : ℕ := if r.hasData then if r.dirIn ≠ 0 then 2 else 3 else 0

/-- `status_dir`. -/
def statusDir (r : ControlRequest) : ℕ := if r.hasData then if r.dirIn ≠ 0 then 0 else 1 else 1

end ControlRequest

section ControlXfer

variable (r : ControlRequest) (cycle : ℕ)

def setupTrb : Trb where
  parameter := r.setupParam
  status := 8
  control := (xhciTrbSetup <<< 10) ||| (r.trt <<< 16) ||| (1 <<< 6) ||| cycle

def dataTrb : Trb where
  parameter := r.data.toNat
  status := r.wLength.toNat
  control := ((xhciTrbData <<< 10) ||| (r.dirIn.toNat <<< 16) ||| cycle) % 2 ^ 32

def statusTrb : Trb where
  parameter := 0
  status := 0
  control := (xhciTrbStatus <<< 10) ||| (r.statusDir <<< 16) ||| (1 <<< 5) ||| cycle

/-- The TRBs of a request, in order. -/
def controlTrbs : List Trb := setupTrb r cycle :: ((if r.hasData then [dataTrb r cycle] else []) ++ [statusTrb r cycle])

end ControlXfer

/-- `ep0_init`: the index and cycle it leaves. The ring is blank. -/
def ep0Init : RingProducer := { idx := 0, cycle := 1 }

def ep0InitRing : ℕ → Trb := fun _ => {}

/-- `control_xfer` up to its doorbell: the stores to the ring, the index and cycle it leaves, and the index of
the status TRB; `none` when the ring has no room. -/
def controlXfer (p : RingProducer) (r : ControlRequest) : Option (List TrbStore × RingProducer × ℕ) :=
  if ringTrbs ≤ p.idx + 3 then none
  else
    let trbs := controlTrbs r p.cycle
    let stores := (trbs.zipIdx p.idx).flatMap fun t => trbStores t.2 t.1
    some (stores, { p with idx := p.idx + trbs.length }, p.idx + trbs.length - 1)

end RaryOS.Model
