import Mathlib.Algebra.Group.Nat.Defs
import Mathlib.Logic.Function.Basic
import Mathlib.Tactic.Common

/-! # The command ring and the interrupt-in ring

A ring has 256 TRBs, of which the last is a link back to the first. The driver writes a TRB by single
stores, the word with the cycle bit last, and hands the ring over by this bit only; the link is
rewritten when the driver wraps around. `RingConsumer.step` is the controller's side.
-/

namespace RaryOS.Model

def ringTrbs : ℕ := 256

def xhciTrbNormal : ℕ := 1
def xhciTrbLink : ℕ := 6
def xhciTrbEnableSlot : ℕ := 9
def xhciTrbAddressDev : ℕ := 11
def xhciTrbConfigEp : ℕ := 12
def xhciTrbXferEvt : ℕ := 32
def xhciTrbCmdCmpl : ℕ := 33
def xhciTrbPortsc : ℕ := 34

/-- `trb_t`. -/
structure Trb where
  parameter : ℕ := 0
  status : ℕ := 0
  control : ℕ := 0
deriving DecidableEq, Repr

namespace Trb

/-- `control & 1`. -/
def cycle (t : Trb) : ℕ := t.control % 2

/-- `(control >> 10) & 0x3F`. -/
def type (t : Trb) : ℕ := t.control / 2 ^ 10 % 64

/-- Toggle Cycle, bit 1 of a link. -/
def toggleCycle (t : Trb) : Bool := t.control / 2 % 2 = 1

def withCycle (t : Trb) (cycle : ℕ) : Trb := { t with control := t.control / 2 * 2 + cycle }

/-- A TRB without its cycle bit. -/
def body (t : Trb) : Trb := t.withCycle 0

end Trb

/-- A single store of the driver to a ring. -/
inductive TrbStore where
  | parameter (slot value : ℕ)
  | status (slot value : ℕ)
  | control (slot value : ℕ)
deriving DecidableEq, Repr

namespace TrbStore

def slot : TrbStore → ℕ
  | parameter slot _ => slot
  | status slot _ => slot
  | control slot _ => slot

def isControl : TrbStore → Bool
  | control _ _ => true
  | _ => false

/-- What the store makes of the TRB in its slot. -/
def write : TrbStore → Trb → Trb
  | parameter _ value, t => { t with parameter := value }
  | status _ value, t => { t with status := value }
  | control _ value, t => { t with control := value }

def apply (st : TrbStore) (ring : ℕ → Trb) : ℕ → Trb :=
  Function.update ring st.slot (st.write (ring st.slot))

end TrbStore

/-- The stores of one TRB. -/
def trbStores (slot : ℕ) (t : Trb) : List TrbStore :=
  [.parameter slot t.parameter, .status slot t.status, .control slot t.control]

/-- The stores of a list, in order. -/
def applyStores (stores : List TrbStore) (ring : ℕ → Trb) : ℕ → Trb :=
  stores.foldl (fun ring st => st.apply ring) ring

/-- `cmd_idx` and `cmd_cycle`, or `intr_idx` and `intr_cycle`. -/
structure RingProducer where
  idx : ℕ := 0
  cycle : ℕ := 1
deriving DecidableEq, Repr

/-- `(XHCI_TRB_LINK << 10) | (1u << 1) | cycle`. -/
def linkControl (cycle : ℕ) : ℕ := (xhciTrbLink <<< 10) ||| (1 <<< 1) ||| cycle

/-- The ring after `setup_cmd_ring`. The controller is told to start at its first TRB with the cycle
state 1. -/
def setupCmdRing (cmdRingPhys : ℕ) : ℕ → Trb :=
  Function.update (fun _ => {}) (ringTrbs - 1)
    { parameter := cmdRingPhys, control := linkControl 1 }

/-- The stores of `submit_cmd`, and the index and cycle it leaves. -/
def submitCmd (p : RingProducer) (type param status slotId : ℕ) : List TrbStore × RingProducer :=
  let (link, p) :=
    if p.idx = ringTrbs - 1 then
      ([.control (ringTrbs - 1) (linkControl p.cycle)], { idx := 0, cycle := p.cycle ^^^ 1 : RingProducer })
    else ([], p)
  (link ++
    [.parameter p.idx param, .status p.idx status,
      .control p.idx (((type <<< 10) ||| (slotId <<< 24) ||| p.cycle) % 2 ^ 32)],
    { p with idx := p.idx + 1 })

/-- The ring after `configure_endpoint`, which also gives the endpoint the cycle state 1. -/
def configureEndpointRing : ℕ → Trb := fun _ => {}

/-- The stores of `queue_interrupt_in_async` to its ring, and the index and cycle it leaves. -/
def queueInterruptIn (ringPhys intrBufPhys hidEpMps : ℕ) (p : RingProducer) :
    List TrbStore × RingProducer :=
  let (link, p) :=
    if ringTrbs - 1 ≤ p.idx then
      ([.parameter (ringTrbs - 1) ringPhys, .control (ringTrbs - 1) (linkControl p.cycle)],
        { idx := 0, cycle := p.cycle ^^^ 1 : RingProducer })
    else ([], p)
  (link ++
    [.parameter p.idx intrBufPhys, .status p.idx hidEpMps,
      .control p.idx ((xhciTrbNormal <<< 10) ||| (1 <<< 5) ||| p.cycle)],
    { p with idx := p.idx + 1 })

/-- The controller's dequeue index and consumer cycle state. -/
structure RingConsumer where
  dequeue : ℕ := 0
  ccs : ℕ := 1
deriving DecidableEq, Repr

/-- A step of the controller: a TRB with its cycle state is its own. It follows a link to index 0 and
executes any other TRB. -/
def RingConsumer.step (c : RingConsumer) (ring : ℕ → Trb) : Option (RingConsumer × Option Trb) :=
  let t := ring c.dequeue
  if t.cycle = c.ccs then
    if t.type = xhciTrbLink then
      some (⟨0, if t.toggleCycle then c.ccs ^^^ 1 else c.ccs⟩, none)
    else some (⟨c.dequeue + 1, c.ccs⟩, some t)
  else none

end RaryOS.Model
