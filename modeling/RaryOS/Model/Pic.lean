import Mathlib.Data.Finset.Insert
import Mathlib.Data.Fintype.Basic
import RaryOS.Model.Irq

/-! # The interrupt controllers

Two 8259A chips, the second behind input 2 of the first, and what `pic_remap` writes to them. A chip latches requests,
offers the first that is not masked while nothing of its priority or above is in service, and has it in service until
an end of interrupt comes. Polling, rotating priorities and the special modes, which nothing here turns on, are left
out.
-/

namespace RaryOS.Model

/-- The word that a chip takes from its data port. -/
inductive PicWord where
  | icw2
  | icw3
  | icw4
  | mask
deriving DecidableEq, Repr

/-- A chip: the mask, the requests, what is in service, and the four words of its initialisation. -/
structure Pic where
  imr : BitVec 8 := 0
  irr : Finset (Fin 8) := ∅
  isr : Finset (Fin 8) := ∅
  single : Bool := false
  needsIcw4 : Bool := false
  offset : BitVec 8 := 0
  cascade : BitVec 8 := 0
  mode : BitVec 8 := 0
  expects : PicWord := .mask
deriving DecidableEq

namespace Pic

/-- The end of interrupt that names no line: the first in service is done. -/
def endOfInterrupt (p : Pic) : Pic :=
  match (List.finRange 8).find? fun k => k ∈ p.isr with
  | some k => { p with isr := p.isr.erase k }
  | none => p

/-- A write to the command port. Bit 4 starts the initialisation. -/
def command (p : Pic) (value : BitVec 8) : Pic :=
  if value.getLsbD 4 then
    { p with
      imr := 0
      irr := ∅
      single := value.getLsbD 1
      needsIcw4 := value.getLsbD 0
      mode := if value.getLsbD 0 then p.mode else 0
      expects := .icw2 }
  else if value = 0x20 then p.endOfInterrupt
  else p

/-- What comes after the third word, or instead of it. -/
def afterCascade (p : Pic) : PicWord := if p.needsIcw4 then .icw4 else .mask

/-- A write to the data port. -/
def data (p : Pic) (value : BitVec 8) : Pic :=
  match p.expects with
  | .icw2 => { p with offset := value &&& 0xF8, expects := if p.single then p.afterCascade else .icw3 }
  | .icw3 => { p with cascade := value, expects := p.afterCascade }
  | .icw4 => { p with mode := value, expects := .mask }
  | .mask => { p with imr := value }

/-- The request that a chip offers, of those that it has. -/
def offer (p : Pic) (requests : Finset (Fin 8)) : Option (Fin 8) :=
  ((List.finRange 8).find? fun k => k ∈ requests ∧ p.imr.getLsbD k = false).filter fun k => ∀ j ≤ k, j ∉ p.isr

/-- The processor takes a request. With automatic end of interrupt, bit 1 of the mode, it is not in service. -/
def serve (p : Pic) (k : Fin 8) : Pic :=
  { p with irr := p.irr.erase k, isr := if p.mode.getLsbD 1 then p.isr else insert k p.isr }

def vector (p : Pic) (k : Fin 8) : BitVec 8 := p.offset + BitVec.ofNat 8 k

end Pic

/-- The two chips. -/
structure Pics where
  first : Pic := {}
  second : Pic := {}
deriving DecidableEq

/-- The input of the first chip that the second is wired to. -/
def cascadeLine : Fin 8 := 2

/-- The input of the first chip at which the timer is. -/
def timerInput : Fin 8 := 0

/-- An input of one of the chips. -/
inductive IrqLine where
  | first (k : Fin 8)
  | second (k : Fin 8)
deriving DecidableEq, Repr

namespace Pics

/-- A device asks for an interrupt. -/
def request (s : Pics) : IrqLine → Pics
  | .first k => { s with first := { s.first with irr := insert k s.first.irr } }
  | .second k => { s with second := { s.second with irr := insert k s.second.irr } }

/-- A device takes its request back. -/
def withdraw (s : Pics) : IrqLine → Pics
  | .first k => { s with first := { s.first with irr := s.first.irr.erase k } }
  | .second k => { s with second := { s.second with irr := s.second.irr.erase k } }

/-- Ports 0x20 and 0x21 are the first chip's, 0xA0 and 0xA1 the second's. -/
def write (s : Pics) : DeviceWrite → Pics
  | .outb port value =>
    if port = 0x20 then { s with first := s.first.command value }
    else if port = 0x21 then { s with first := s.first.data value }
    else if port = 0xA0 then { s with second := s.second.command value }
    else if port = 0xA1 then { s with second := s.second.data value }
    else s
  | .mmio _ _ => s

def writes (s : Pics) (ws : List DeviceWrite) : Pics := ws.foldl write s

/-- The requests at the first chip: the second one asks as long as it has something to offer. -/
def requests (s : Pics) : Finset (Fin 8) :=
  if (s.second.offer s.second.irr).isSome then insert cascadeLine s.first.irr else s.first.irr

/-- The first chip has been told of the second, and the second of its own place. -/
def Cascaded (s : Pics) : Prop :=
  s.first.cascade.getLsbD cascadeLine = true ∧ s.second.cascade &&& 7 = BitVec.ofNat 8 cascadeLine

instance (s : Pics) : Decidable s.Cascaded := inferInstanceAs (Decidable (_ ∧ _))

/-- The processor acknowledges: the vector that it gets, if anything is offered. -/
def acknowledge (s : Pics) : Option (BitVec 8 × Pics) :=
  match s.first.offer s.requests with
  | none => none
  | some k =>
    let first := s.first.serve k
    if k = cascadeLine ∧ s.Cascaded then
      match s.second.offer s.second.irr with
      | some j => some (s.second.vector j, { first, second := s.second.serve j })
      | none => some (s.second.vector 7, { s with first })
    else some (s.first.vector k, { s with first })

/-- The processor acknowledges a request that is gone: the chip that is asked answers with its last line, and has
nothing in service. -/
def spurious (s : Pics) (bySecond : Bool) : BitVec 8 × Pics :=
  if bySecond then (s.second.vector 7, { s with first := s.first.serve cascadeLine }) else (s.first.vector 7, s)

end Pics

/-! ## What the kernel writes -/

/-- `io_wait`. -/
def ioWait : DeviceWrite := .outb 0x80 0

def pic1Command : BitVec 16 := 0x20
def pic1Data : BitVec 16 := 0x21
def pic2Command : BitVec 16 := 0xA0
def pic2Data : BitVec 16 := 0xA1

def picRemap : List DeviceWrite :=
  [.outb pic1Command 0x11, ioWait,
   .outb pic2Command 0x11, ioWait,
   .outb pic1Data 0x20, ioWait,
   .outb pic2Data 0x28, ioWait,
   .outb pic1Data 0x04, ioWait,
   .outb pic2Data 0x02, ioWait,
   .outb pic1Data 0x01, ioWait,
   .outb pic2Data 0x01, ioWait,
   .outb pic1Data 0xFF,
   .outb pic2Data 0xFF]

end RaryOS.Model
