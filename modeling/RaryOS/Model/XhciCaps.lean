import Mathlib.Data.BitVec
import Mathlib.Logic.Function.Basic
import RaryOS.Model.XhciRings

/-! # Starting the controller

`run` reads the capability registers, hands the controller its scratchpad buffers in the first entry of the
device context array, and starts it. The register writes are listed in order, by address.
-/

namespace RaryOS.Model

def maxScratchpad : ℕ := 32

def xhciUsbcmdRs : ℕ := 1 <<< 0
def xhciUsbcmdHcrst : ℕ := 1 <<< 1

/-- The fields of `XhciController` that `parse_caps` sets. -/
structure XhciCaps where
  caplength : ℕ
  maxSlots : ℕ
  maxIntrs : ℕ
  maxPorts : ℕ
  numScratchpad : ℕ
  op : ℕ
  db : ℕ
  rt : ℕ
  ports : ℕ
deriving DecidableEq, Repr

/-- `num_scratchpad`, from HCSPARAMS2. -/
def numScratchpadOf (cap2 : BitVec 32) : ℕ := (((cap2.toNat >>> 21) &&& 0x1F) <<< 5) ||| (cap2.toNat &&& 0xFF)

/-- `parse_caps`; `regs` reads a capability register. -/
def parseCaps (regs : ℕ → BitVec 32) (mmioBase : ℕ) : XhciCaps :=
  let caplength := (regs 0x00).toNat &&& 0xFF
  let cap1 := (regs 0x04).toNat
  let op := mmioBase + caplength
  { caplength := caplength
    maxSlots := cap1 &&& 0xFF
    maxIntrs := (cap1 >>> 8) &&& 0x7FF
    maxPorts := (cap1 >>> 24) &&& 0xFF
    numScratchpad := numScratchpadOf (regs 0x08)
    op := op
    db := mmioBase + (regs 0x14 &&& ~~~0x3).toNat
    rt := mmioBase + (regs 0x18 &&& ~~~0x1F).toNat
    ports := op + 0x400 }

/-- Where the arrays of the driver are. -/
structure XhciLayout where
  dcbaap : ℕ
  scratchpadArray : ℕ
  scratchpadData : ℕ
  cmdRing : ℕ
  evtRing : ℕ
  erst : ℕ
  array_pos : 0 < scratchpadArray
  data_pos : 0 < scratchpadData

/-- The address of `scratchpad_data[i]`. -/
def XhciLayout.page (l : XhciLayout) (i : ℕ) : ℕ := l.scratchpadData + 4096 * i

/-- The arrays of the driver that are for the controller, blank at first. -/
structure XhciArrays where
  dcbaap : ℕ → ℕ := fun _ => 0
  scratchpadArray : ℕ → ℕ := fun _ => 0
  scratchpadData : ℕ → ℕ → ℕ := fun _ _ => 0

namespace XhciArrays

/-- An iteration of the loop of `setup_dcbaap`. -/
def installPage (l : XhciLayout) (a : XhciArrays) (i : ℕ) : XhciArrays :=
  { a with
    scratchpadData := Function.update a.scratchpadData i fun _ => 0
    scratchpadArray := Function.update a.scratchpadArray i (l.page i) }

/-- `setup_dcbaap` but for its register writes. -/
def setupDcbaap (l : XhciLayout) (numScratchpad : ℕ) (a : XhciArrays) : XhciArrays :=
  let a := { a with dcbaap := fun _ => 0 }
  let sp := if maxScratchpad < numScratchpad then maxScratchpad else numScratchpad
  if 0 < sp then
    let a := (List.range sp).foldl (installPage l) a
    { a with dcbaap := Function.update a.dcbaap 0 l.scratchpadArray }
  else a

end XhciArrays

/-- The two halves of a 64-bit register. -/
def writeHalves (address value : ℕ) : List (ℕ × ℕ) := [(address, value % 2 ^ 32), (address + 4, value / 2 ^ 32)]

/-- The writes of `halt`. -/
def haltWrites (op : ℕ) : List (ℕ × ℕ) := [(op + 0x00, 0)]

/-- The writes of `reset`. -/
def resetWrites (op : ℕ) : List (ℕ × ℕ) := haltWrites op ++ [(op + 0x00, xhciUsbcmdHcrst)] ++ haltWrites op

/-- The writes of `setup_dcbaap`. -/
def dcbaapWrites (l : XhciLayout) (op : ℕ) : List (ℕ × ℕ) := writeHalves (op + 0x30) l.dcbaap

/-- The writes of `setup_cmd_ring`. -/
def cmdRingWrites (l : XhciLayout) (op : ℕ) : List (ℕ × ℕ) :=
  [(op + 0x18, l.cmdRing % 2 ^ 32 ||| 1), (op + 0x1C, l.cmdRing / 2 ^ 32)]

/-- The writes of `setup_evt_ring`. -/
def evtRingWrites (l : XhciLayout) (rt : ℕ) : List (ℕ × ℕ) :=
  (rt + 0x20 + 0x08, 1) :: writeHalves (rt + 0x20 + 0x18) l.evtRing ++ writeHalves (rt + 0x20 + 0x10) l.erst

/-- The writes of `start`. -/
def startWrites (op : ℕ) : List (ℕ × ℕ) := [(op + 0x00, xhciUsbcmdRs)]

/-- `run` up to and with `start`: the capabilities, the arrays and the register writes. -/
def runStart (l : XhciLayout) (regs : ℕ → BitVec 32) (mmioBase : ℕ) (a : XhciArrays) :
    XhciCaps × XhciArrays × List (ℕ × ℕ) :=
  let caps := parseCaps regs mmioBase
  let writes := resetWrites caps.op ++ [(caps.op + 0x38, caps.maxSlots)] ++ dcbaapWrites l caps.op ++
    cmdRingWrites l caps.op ++ evtRingWrites l caps.rt ++ startWrites caps.op
  (caps, a.setupDcbaap l caps.numScratchpad, writes)

end RaryOS.Model
