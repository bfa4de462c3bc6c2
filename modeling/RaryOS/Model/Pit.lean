import RaryOS.Model.Irq

/-! # The interval timer

Channel 0 of the 8253, whose output is input 0 of the first interrupt controller. In its square wave mode the output
is high for the first half of the count, low for the rest, and the count is loaded again. The other modes and the
other channels are left out, and so are counts that are written as one byte.
-/

namespace RaryOS.Model

/-- The control word, the first byte of a count when the second is to come, and how many clocks ago the count was
loaded. -/
structure Pit where
  control : BitVec 8 := 0
  low : Option (BitVec 8) := none
  count : Option ℕ := none
  elapsed : ℕ := 0
deriving DecidableEq, Repr

/-- What the output does at a clock. -/
inductive PitEdge where
  | steady
  | rises
  | falls
deriving DecidableEq, Repr

namespace Pit

/-- A count of zero is 65536. -/
def countOf (low high : BitVec 8) : ℕ :=
  let count := high.toNat <<< 8 ||| low.toNat
  if count = 0 then 65536 else count

/-- Port 0x43 takes the control word, port 0x40 the count of channel 0, the low byte first. -/
def write (p : Pit) : DeviceWrite → Pit
  | .outb port value =>
    if port = 0x43 then if value >>> 6 = 0 then { control := value } else p
    else if port = 0x40 then
      if p.control >>> 4 &&& 3 = 3 then
        match p.low with
        | none => { p with low := some value }
        | some low => { p with low := none, count := some (countOf low value), elapsed := 0 }
      else p
    else p
  | .mmio _ _ => p

def writes (p : Pit) (ws : List DeviceWrite) : Pit := ws.foldl write p

/-- The square wave mode. -/
def squareWave (p : Pit) : Bool := p.control >>> 1 &&& 3 = 3

/-- One clock. -/
def clock (p : Pit) : Pit × PitEdge :=
  match p.count with
  | none => (p, .steady)
  | some count =>
    let elapsed := p.elapsed + 1
    ({ p with elapsed },
      if p.squareWave = false then .steady
      else if elapsed % count = 0 then .rises
      else if elapsed % count = (count + 1) / 2 then .falls
      else .steady)

end Pit

def pitDivisor : ℕ := 1193182 / 100

def initPit : List DeviceWrite :=
  [.outb 0x43 0x36,
   .outb 0x40 (BitVec.ofNat 8 (pitDivisor &&& 0xFF)),
   .outb 0x40 (BitVec.ofNat 8 (pitDivisor >>> 8 &&& 0xFF))]

end RaryOS.Model
