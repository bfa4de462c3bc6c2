import RaryOS.Model.Pci

/-! # Message-signalled interrupts

`setup_msix` follows the capability list of the controller's configuration space, fills the first entry of the table
that the MSI-X capability describes, and turns the capability on. The stores to the table are listed.
-/

namespace RaryOS.Model

/-- What a write to the data port does, for each value of the address port. -/
abbrev ConfigWrite := ConfigSpace → BitVec 32 → BitVec 32 → ConfigSpace

def usbIrqVector : ℕ := 0x40

section Capabilities

variable (space : ConfigSpace) (bus slot func : BitVec 8)

/-- The first pointer of the list. -/
def capStart : BitVec 8 := (pciRead32 space bus slot func 0x34 &&& 0xFC).setWidth 8

def capId (capPtr : BitVec 8) : BitVec 8 := (pciRead32 space bus slot func capPtr &&& 0xFF).setWidth 8

def capNext (capPtr : BitVec 8) : BitVec 8 := (pciRead32 space bus slot func capPtr >>> 8 &&& 0xFC).setWidth 8

/-- The loop over the list, with `guard` iterations to go. -/
def findMsixCap : (guard : ℕ) → (capPtr : BitVec 8) → Option (BitVec 8)
  | 0, _ => none
  | guard + 1, capPtr =>
    if capPtr = 0 then none
    else if capId space bus slot func capPtr = 0x11 then some capPtr
    else findMsixCap guard (capNext space bus slot func capPtr)

/-- The capability that `setup_msix` uses, if the status register says that there is a list. -/
def msixCap : Option (BitVec 8) :=
  if pciRead32 space bus slot func 0x04 >>> 16 &&& 0x0010 = 0 then none
  else findMsixCap space bus slot func 64 (capStart space bus slot func)

/-- `table_addr`. -/
def msixTableAddr (cap : BitVec 8) : BitVec 64 :=
  let tableOffBir := pciRead32 space bus slot func (cap + 0x04)
  let bir : BitVec 8 := (tableOffBir &&& 0x7).setWidth 8
  let tableOffset := tableOffBir &&& 0xFFFFFFF8
  let barLow := pciRead32 space bus slot func (0x10 + 4 * bir)
  let is64 : Bool := barLow >>> 1 &&& 0x3 = 0x2
  let barHigh := if is64 then pciRead32 space bus slot func (0x10 + 4 * (bir + 1)) else 0
  let barAddr := (barLow &&& 0xFFFFFFF0).setWidth 64 ||| barHigh.setWidth 64 <<< 32
  barAddr + tableOffset.setWidth 64

/-- The stores to the first entry of the table. -/
def msixEntryStores (tableAddr : BitVec 64) : List (BitVec 64 × BitVec 32) :=
  [(tableAddr, 0xFEE00000), (tableAddr + 4, 0), (tableAddr + 8, BitVec.ofNat 32 usbIrqVector), (tableAddr + 12, 0)]

/-- `setup_msix`: its result, the configuration space, and the stores. -/
def setupMsix (write : ConfigWrite) : ℤ × ConfigSpace × List (BitVec 64 × BitVec 32) :=
  match msixCap space bus slot func with
  | none => (-1, space, [])
  | some cap =>
    let capDword := pciRead32 space bus slot func cap
    let msgctl : BitVec 16 := (capDword >>> 16 &&& 0xFFFF).setWidth 16
    let tableSize : BitVec 16 := (msgctl &&& 0x7FF) + 1
    if tableSize < 1 then (-1, space, [])
    else
      let stores := msixEntryStores (msixTableAddr space bus slot func cap)
      let msgctl := msgctl &&& 0x3FFF ||| 1 <<< 15
      let newDword := capDword &&& 0x0000FFFF ||| msgctl.setWidth 32 <<< 16
      let space := write space (configAddress bus slot func cap) newDword
      let verify : BitVec 16 := (pciRead32 space bus slot func cap >>> 16 &&& 0xFFFF).setWidth 16
      (if verify.getLsbD 15 then 0 else -1, space, stores)

end Capabilities

/-! ## The device -/

/-- An entry of the table. -/
structure MsixEntry where
  address : BitVec 64
  data : BitVec 32
  masked : Bool
deriving DecidableEq, Repr

/-- The dword that is stored at an address last. -/
def lastStore (stores : List (BitVec 64 × BitVec 32)) (address : BitVec 64) : Option (BitVec 32) :=
  (stores.reverse.find? fun store => store.1 = address).map Prod.snd

/-- The entry at an address after the stores, if they set all of it. -/
def MsixEntry.read (stores : List (BitVec 64 × BitVec 32)) (address : BitVec 64) : Option MsixEntry := do
  let low ← lastStore stores address
  let high ← lastStore stores (address + 4)
  let data ← lastStore stores (address + 8)
  let control ← lastStore stores (address + 12)
  return ⟨high ++ low, data, control.getLsbD 0⟩

/-- The vector that a message raises at the local APIC with identifier 0: fixed delivery, physical destination. -/
def MsixEntry.vector (e : MsixEntry) : Option (BitVec 8) :=
  if e.masked = false ∧ e.address = 0xFEE00000 ∧ e.data >>> 8 &&& 7 = 0 then some (e.data.setWidth 8) else none

/-- The message control of the capability: on, and no mask for the whole function. -/
def MsixEnabled (space : ConfigSpace) (bus slot func cap : BitVec 8) : Prop :=
  (pciRead32 space bus slot func cap).getLsbD 31 = true ∧ (pciRead32 space bus slot func cap).getLsbD 30 = false

end RaryOS.Model
