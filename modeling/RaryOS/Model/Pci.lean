import Mathlib.Data.BitVec
import Mathlib.Tactic.Common

/-! # Finding a device on the PCI bus

`findPciDevice` reads the configuration space of every function of every slot of every bus until one matches the
signature of the device type. A configuration space is what the data port gives for each value of the address
port.
-/

namespace RaryOS.Model

/-- `DeviceType`. -/
inductive DeviceType where
  | xhci
  | ehci
  | ahci
  | intelE1000
  | nvme
deriving DecidableEq, Repr

/-- `PciDevice`. -/
structure PciDevice where
  bus : BitVec 8 := 0
  slot : BitVec 8 := 0
  func : BitVec 8 := 0
  mmioBase : BitVec 64 := 0
  vendorId : BitVec 16 := 0
  deviceId : BitVec 16 := 0
deriving DecidableEq, Repr

/-- `DeviceSignature`. -/
structure DeviceSignature where
  type : DeviceType
  useClassMatching : Bool
  classCode : BitVec 8
  subclass : BitVec 8
  vendorId : BitVec 16
  deviceId : BitVec 16
deriving DecidableEq, Repr

/-- `lookup_table`. -/
def lookupTable : List DeviceSignature :=
  [⟨.xhci, true, 0x0C, 0x03, 0x0000, 0x0000⟩,
   ⟨.ehci, true, 0x0C, 0x03, 0x0000, 0x0000⟩,
   ⟨.ahci, true, 0x01, 0x06, 0x0000, 0x0000⟩,
   ⟨.nvme, true, 0x01, 0x08, 0x0000, 0x0000⟩,
   ⟨.intelE1000, false, 0x00, 0x00, 0x8086, 0x100E⟩]

/-- The value of `CONFIG_DATA` for each value of `CONFIG_ADDRESS`. -/
abbrev ConfigSpace := BitVec 32 → BitVec 32

def configAddress (bus slot func offset : BitVec 8) : BitVec 32 :=
  1 <<< 31 ||| bus.setWidth 32 <<< 16 ||| slot.setWidth 32 <<< 11 ||| func.setWidth 32 <<< 8 |||
    (offset &&& 0xFC).setWidth 32

section Space

variable (space : ConfigSpace)

def readConfig (bus slot func offset : BitVec 8) : BitVec 32 := space (configAddress bus slot func offset)

/-- `pci_read32` of `usb.cpp`. -/
def pciRead32 (bus slot func offset : BitVec 8) : BitVec 32 := space (configAddress bus slot func offset)

/-- `is_match`; it stays false where the loop goes on to the next function. -/
def isMatch (type : DeviceType) (sig : DeviceSignature) (id classRev : BitVec 32) : Bool :=
  let vendorId : BitVec 16 := (id &&& 0xFFFF).setWidth 16
  let deviceId : BitVec 16 := (id >>> 16 &&& 0xFFFF).setWidth 16
  let classCode : BitVec 8 := (classRev >>> 24 &&& 0xFF).setWidth 8
  let subclass : BitVec 8 := (classRev >>> 16 &&& 0xFF).setWidth 8
  let progIf : BitVec 8 := (classRev >>> 8 &&& 0xFF).setWidth 8
  if sig.useClassMatching then
    if classCode = sig.classCode ∧ subclass = sig.subclass then
      if type = .xhci ∧ progIf ≠ 0x30 then false
      else if type = .ehci ∧ progIf ≠ 0x20 then false
      else true
    else false
  else vendorId = sig.vendorId ∧ deviceId = sig.deviceId

/-- `mmio_base`: the first BAR, decoded. -/
def mmioBase (bus slot func : BitVec 8) : BitVec 64 :=
  let bar0 := readConfig space bus slot func 0x10
  if bar0 &&& 0x1 = 0 then
    if bar0 >>> 1 &&& 0x3 = 2 then
      let bar1 := readConfig space bus slot func 0x14
      bar1.setWidth 64 <<< 32 ||| (bar0.setWidth 64 &&& 0xFFFFFFF0)
    else (bar0 &&& 0xFFFFFFF0).setWidth 64
  else (bar0 &&& 0xFFFFFFFC).setWidth 64

/-- One function: the description for `outDev` if it is there and matches. -/
def probeFunction (type : DeviceType) (sig : DeviceSignature) (bus slot func : BitVec 8) : Option PciDevice :=
  let id := readConfig space bus slot func 0x00
  if id &&& 0xFFFF = 0xFFFF then none
  else if isMatch type sig id (readConfig space bus slot func 0x08) then
    some {
      bus := bus
      slot := slot
      func := func
      mmioBase := mmioBase space bus slot func
      vendorId := (id &&& 0xFFFF).setWidth 16
      deviceId := (id >>> 16 &&& 0xFFFF).setWidth 16 }
  else none

/-- The loop over the functions of a slot. -/
def scanFunctions (type : DeviceType) (sig : DeviceSignature) (bus slot : BitVec 8) (isMultiFunction : Bool) :
    List ℕ → Option PciDevice
  | [] => none
  | func :: rest =>
    if 0 < func ∧ isMultiFunction = false then none
    else
      match probeFunction space type sig bus slot (BitVec.ofNat 8 func) with
      | some device => some device
      | none => scanFunctions type sig bus slot isMultiFunction rest

/-- The body of the loop over the slots. -/
def scanSlot (type : DeviceType) (sig : DeviceSignature) (bus slot : BitVec 8) : Option PciDevice :=
  if readConfig space bus slot 0 0x00 &&& 0xFFFF = 0xFFFF then none
  else
    let isMultiFunction : Bool := readConfig space bus slot 0 0x0C >>> 16 &&& 0x80 ≠ 0
    scanFunctions space type sig bus slot isMultiFunction (List.range 8)

/-- `findPciDevice`, with `outDev` afterwards. -/
def findPciDevice (type : DeviceType) (outDev : PciDevice) : Bool × PciDevice :=
  match lookupTable.find? (fun item => item.type = type) with
  | none => (false, outDev)
  | some sig =>
    let found := (List.range 256).findSome? fun bus => (List.range 32).findSome? fun slot =>
      scanSlot space type sig (BitVec.ofNat 8 bus) (BitVec.ofNat 8 slot)
    match found with
    | some device => (true, device)
    | none => (false, outDev)

end Space

end RaryOS.Model
