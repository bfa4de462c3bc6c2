import RaryOS.Core.Loop
import RaryOS.Core.Memory

/-! # Finding the keyboard in a configuration descriptor

A configuration descriptor is followed by the descriptors of its interfaces and endpoints, each with its
length and its type in the first two bytes. `find_hid_keyboard` walks over them once and remembers whether
the last interface was a boot keyboard. Offsets are `uint32_t`, and so are the indices into `cfg`.
-/

namespace RaryOS.Model

open RaryOS.Core

def usbDescInterface : ℕ := 0x04
def usbDescEndpoint : ℕ := 0x05

/-- `*out_iface`, `*out_ep_addr`, `*out_mps` and `*out_interval`. -/
structure HidKeyboard where
  iface : ℕ := 0
  epAddr : ℕ := 0
  mps : ℕ := 0
  interval : ℕ := 0
deriving DecidableEq, Repr

/-- The variables of the loop. -/
structure HidScan where
  off : ℕ := 0
  inHidIface : Bool := false
  out : HidKeyboard := {}
deriving DecidableEq, Repr

/-- `cfg[off + k]`. -/
def cfgByte (cfg : Memory) (off k : ℕ) : ℕ := (cfg ((off + k) % 2 ^ 32)).toNat

/-- `off + size <= total`. -/
def cfgHas (total off size : ℕ) : Bool := (off + size) % 2 ^ 32 ≤ total

/-- The interface at `off` has the class, subclass and protocol of a boot keyboard. -/
def isBootKeyboard (cfg : Memory) (off : ℕ) : Bool :=
  cfgByte cfg off 5 = 0x03 ∧ cfgByte cfg off 6 = 0x01 ∧ cfgByte cfg off 7 = 0x01

/-- The endpoint at `off` is an interrupt endpoint towards the host. -/
def isInterruptIn (cfg : Memory) (off : ℕ) : Bool :=
  cfgByte cfg off 3 &&& 0x03 = 0x03 ∧ cfgByte cfg off 2 &&& 0x80 ≠ 0

/-- The assignments for an endpoint that is found. -/
def HidKeyboard.withEndpoint (out : HidKeyboard) (cfg : Memory) (off : ℕ) : HidKeyboard :=
  { out with
    epAddr := cfgByte cfg off 2
    mps := cfgByte cfg off 4 ||| cfgByte cfg off 5 <<< 8
    interval := cfgByte cfg off 6 }

/-- `off += blen`. -/
def HidScan.advance (s : HidScan) (blen : ℕ) : HidScan := { s with off := (s.off + blen) % 2 ^ 32 }

/-- One iteration of the loop. -/
def findHidKeyboardBody (cfg : Memory) (total : ℕ) (s : HidScan) : HidScan ⊕ (ℤ × HidKeyboard) :=
  if cfgHas total s.off 2 then
    let blen := cfgByte cfg s.off 0
    let btype := cfgByte cfg s.off 1
    if blen = 0 then .inr (-1, s.out)
    else if btype = usbDescInterface ∧ cfgHas total s.off 9 then
      let curIface := cfgByte cfg s.off 2
      let s :=
        if isBootKeyboard cfg s.off then
          { s with inHidIface := true, out := { s.out with iface := curIface } }
        else { s with inHidIface := false }
      .inl (s.advance blen)
    else if btype = usbDescEndpoint ∧ cfgHas total s.off 7 ∧ s.inHidIface ∧ isInterruptIn cfg s.off then
      .inr (0, s.out.withEndpoint cfg s.off)
    else .inl (s.advance blen)
  else .inr (-1, s.out)

/-- `find_hid_keyboard`. Every iteration gets at least one byte further, unless `off` wraps around. -/
def findHidKeyboard (cfg : Memory) (total : ℕ) : Option (ℤ × HidKeyboard) :=
  loop (findHidKeyboardBody cfg total) (total + 1) {}

/-- The indices that an iteration reads. The operands of `&&` are read from left to right, up to the first
that is false. -/
def findHidKeyboardReads (cfg : Memory) (total : ℕ) (s : HidScan) : List ℕ :=
  let index := fun k => (s.off + k) % 2 ^ 32
  let byte := cfgByte cfg s.off
  if cfgHas total s.off 2 then
    [index 0, index 1] ++
      if byte 0 = 0 then []
      else if byte 1 = usbDescInterface ∧ cfgHas total s.off 9 then
        [index 2, index 5] ++ if byte 5 = 0x03 then index 6 :: if byte 6 = 0x01 then [index 7] else [] else []
      else if byte 1 = usbDescEndpoint ∧ cfgHas total s.off 7 ∧ s.inHidIface then
        index 3 :: if byte 3 &&& 0x03 = 0x03 then
          index 2 :: if byte 2 &&& 0x80 ≠ 0 then [index 4, index 5, index 6] else []
        else []
      else []
  else []

end RaryOS.Model
