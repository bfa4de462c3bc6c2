import RaryOS.Core.Reading

/-! # The ACPI tables

`acpi_init` finds the root pointer, walks over the table of tables, and searches the SSDTs and the DSDT for the
package `_S5_`, whose first two elements are the sleep types. The search works on a table of the length in its
header. Offsets are `uint32_t`. The search keeps where it read, and the walk keeps the slots it followed.
-/

namespace RaryOS.Model

open RaryOS.Core

/-! ## The search for `_S5_` -/

/-- How many bytes a `PkgLength` has, from its first. -/
def pkglenSize (pkglen : BitVec 8) : ℕ :=
  if pkglen &&& 0xC0 = 0x40 then 2
  else if pkglen &&& 0xC0 = 0x80 then 3
  else if pkglen &&& 0xC0 = 0xC0 then 4
  else 1

/-- `*off + n >= length`, or the low byte of the `n` bytes after the prefix, and the offset after them. -/
def parseConst (p : Memory) (length off n : ℕ) : Reading (Option (BitVec 8 × ℕ)) :=
  if (off + n) % 2 ^ 32 ≥ length then return none
  else do return some (← p.readByte ((off + 1) % 2 ^ 32), (off + (n + 1)) % 2 ^ 32)

/-- `parse_int_element`: the low byte of the integer and the offset after it; `none` returns 0. -/
def parseIntElement (p : Memory) (length off : ℕ) : Reading (Option (BitVec 8 × ℕ)) :=
  if off ≥ length then return none
  else do
    let op ← p.readByte off
    if op = 0x00 then return some (0, (off + 1) % 2 ^ 32)
    else if op = 0x01 then return some (1, (off + 1) % 2 ^ 32)
    else if op = 0xFF then return some (0xFF, (off + 1) % 2 ^ 32)
    else if op = 0x0A then parseConst p length off 1
    else if op = 0x0B then parseConst p length off 2
    else if op = 0x0C then parseConst p length off 4
    else if op = 0x0E then parseConst p length off 8
    else if op ≥ 0x02 then return some (op, (off + 1) % 2 ^ 32)
    else return none

/-- The loop over `count` elements, which the first failure ends. -/
def parseElements (p : Memory) (length : ℕ) : ℕ → ℕ → Reading (List (BitVec 8))
  | 0, _ => return []
  | count + 1, off => do
    match ← parseIntElement p length off with
    | none => return []
    | some (value, next) => return value :: (← parseElements p length count next)

/-- Bytes compared up to the first difference. -/
def matchBytes (p : Memory) : ℕ → List (BitVec 8) → Reading Bool
  | _, [] => return true
  | off, byte :: rest => do
    if (← p.readByte off) = byte then matchBytes p ((off + 1) % 2 ^ 32) rest else return false

/-- `_S5_`. -/
def s5Name : List (BitVec 8) := [0x5F, 0x53, 0x35, 0x5F]

/-- `off < length && dsdt[off] == op`. -/
def opAt (dsdt : Memory) (length off : ℕ) (op : BitVec 8) : Reading Bool :=
  if off < length then do return (← dsdt.readByte off) == op else return false

/-- `for (uint32_t k = 0; k < 16 && off + k < length; k++)`: where the first `0x12` is, or `off`. -/
def seekPackage (dsdt : Memory) (length off : ℕ) : ℕ → ℕ → Reading ℕ
  | 0, _ => return off
  | fuel + 1, k =>
    if (off + k) % 2 ^ 32 < length then do
      if (← dsdt.readByte ((off + k) % 2 ^ 32)) = 0x12 then return (off + k) % 2 ^ 32
      else seekPackage dsdt length off fuel (k + 1)
    else return off

/-- After a method's header, the search for the package in it. -/
def skipMethod (dsdt : Memory) (length off : ℕ) : Reading ℕ := do
  if ← opAt dsdt length off 0x14 then
    let pkglen ← dsdt.readByte ((off + 1) % 2 ^ 32)
    seekPackage dsdt length ((off + (1 + pkglenSize pkglen + 1)) % 2 ^ 32) 16 0
  else return off

/-- The package after its opcode: `vals[0]` and `vals[1]`, of four values that start as zeros. -/
def s5Package (dsdt : Memory) (length off : ℕ) : Reading (Option (BitVec 8 × BitVec 8)) := do
  let pkglen ← dsdt.readByte off
  let off := (off + pkglenSize pkglen) % 2 ^ 32
  if off ≥ length then return none
  else
    let num ← dsdt.readByte off
    if num < 2 then return none
    else
      let vals ← parseElements dsdt length (min 4 num.toNat) ((off + 1) % 2 ^ 32)
      return some (vals.getD 0 0, vals.getD 1 0)

/-- What follows the name at `i`; `none` is `continue`. -/
def s5At (dsdt : Memory) (length i : ℕ) : Reading (Option (BitVec 8 × BitVec 8)) := do
  let off := (i + 4) % 2 ^ 32
  let named ← opAt dsdt length off 0x08
  let off ← skipMethod dsdt length (if named then (off + 1) % 2 ^ 32 else off)
  if ← opAt dsdt length off 0x12 then s5Package dsdt length ((off + 1) % 2 ^ 32)
  else return none

/-- `for (uint32_t i = 0; i + 4 < length; i++)`. A `uint32_t` bound needs 2^32 of fuel at most. -/
def findS5Loop (dsdt : Memory) (length : ℕ) : ℕ → ℕ → Reading (Option (BitVec 8 × BitVec 8))
  | 0, _ => return none
  | fuel + 1, i =>
    if (i + 4) % 2 ^ 32 < length then do
      if ← matchBytes dsdt i s5Name then
        match ← s5At dsdt length i with
        | some found => return some found
        | none => findS5Loop dsdt length fuel (i + 1)
      else findS5Loop dsdt length fuel (i + 1)
    else return none

/-- `find_s5`: `*out_a` and `*out_b`, or `none` for 0. -/
def findS5 (dsdt : Memory) (length : ℕ) : Reading (Option (BitVec 8 × BitVec 8)) :=
  findS5Loop dsdt length (2 ^ 32) 0

/-! ## The tables -/

/-- A table, from its header on. -/
def tableAt (m : Memory) (hdr : ℕ) : Memory := fun off => m ((hdr + off) % 2 ^ 64)

/-- `memcmp_` with a string of `n` bytes. -/
def memcmp_ (a : Memory) : ℕ → List (BitVec 8) → ℤ
  | _, [] => 0
  | i, y :: rest => if a i ≠ y then (a i).toNat - (y.toNat : ℤ) else memcmp_ a (i + 1) rest

def acpiChecksum (data : Memory) (length : ℕ) : BitVec 8 :=
  (List.range length).foldl (fun sum i => sum + data i) 0

/-- `RSD PTR ` and a sum of zero. -/
def isRsdp (m : Memory) (p : ℕ) : Bool :=
  memcmp_ (tableAt m p) 0 [0x52, 0x53, 0x44, 0x20, 0x50, 0x54, 0x52, 0x20] = 0 && acpiChecksum (tableAt m p) 20 = 0

/-- `find_rsdp`: the first kilobyte of the EBDA, when there is one, then 0xE0000 to 0x100000. -/
def findRsdp (m : Memory) : Option ℕ :=
  let ebdaSeg := m.load 0x40E 2
  (if ebdaSeg ≠ 0 then (List.range' (ebdaSeg * 16) 64 16).find? (isRsdp m) else none).or
    ((List.range' 0xE0000 0x2000 16).find? (isRsdp m))

/-- `rsdp->revision >= 2 && rsdp->xsdt_address`. -/
def hasXsdt (m : Memory) (rsdp : ℕ) : Prop := 2 ≤ (tableAt m rsdp).load 15 1 ∧ (tableAt m rsdp).load64 24 ≠ 0

instance (m : Memory) (rsdp : ℕ) : Decidable (hasXsdt m rsdp) := inferInstanceAs (Decidable (_ ∧ _))

/-- The address of the table of tables, cut to 32 bits. -/
def sdtPhys (m : Memory) (rsdp : ℕ) : ℕ :=
  if hasXsdt m rsdp then (tableAt m rsdp).load64 24 % 2 ^ 32 else (tableAt m rsdp).load32 16

def entrySize (m : Memory) (rsdp : ℕ) : ℕ := if hasXsdt m rsdp then 8 else 4

/-- `sizeof(struct sdt_header)`. -/
def sdtHeaderSize : ℕ := 36

/-- The fields of `struct sdt_header` that are read. -/
def sdtLength (m : Memory) (hdr : ℕ) : ℕ := (tableAt m hdr).load32 4
def hasSignature (m : Memory) (hdr : ℕ) (signature : List (BitVec 8)) : Prop :=
  memcmp_ (tableAt m hdr) 0 signature = 0
def hasOemId (m : Memory) (hdr : ℕ) (oemId : List (BitVec 8)) : Prop := memcmp_ (tableAt m hdr) 10 oemId = 0

instance (m : Memory) (hdr : ℕ) (signature : List (BitVec 8)) : Decidable (hasSignature m hdr signature) :=
  inferInstanceAs (Decidable (_ = _))

instance (m : Memory) (hdr : ℕ) (oemId : List (BitVec 8)) : Decidable (hasOemId m hdr oemId) :=
  inferInstanceAs (Decidable (_ = _))

def signRSDT : List (BitVec 8) := [0x52, 0x53, 0x44, 0x54]
def signXSDT : List (BitVec 8) := [0x58, 0x53, 0x44, 0x54]
def signFACP : List (BitVec 8) := [0x46, 0x41, 0x43, 0x50]
def signSSDT : List (BitVec 8) := [0x53, 0x53, 0x44, 0x54]
def signDSDT : List (BitVec 8) := [0x44, 0x53, 0x44, 0x54]

/-- The table of tables has one of its two signatures. -/
def SdtAccepted (m : Memory) (sdt : ℕ) : Prop := hasSignature m sdt signRSDT ∨ hasSignature m sdt signXSDT

instance (m : Memory) (sdt : ℕ) : Decidable (SdtAccepted m sdt) := inferInstanceAs (Decidable (_ ∨ _))

structure AcpiState where
  pm1aCntBlk : ℕ := 0
  pm1bCntBlk : ℕ := 0
  slpTypa : BitVec 8 := 5
  slpTypb : BitVec 8 := 5
  haveS5 : Bool := false
  isQemu : Bool := false
deriving DecidableEq, Repr

/-- `try_table_s5`. -/
def tryTableS5 (m : Memory) (hdr : ℕ) (s : AcpiState) : AcpiState :=
  if s.haveS5 then s
  else
    match (findS5 (tableAt m hdr) (sdtLength m hdr)).value with
    | none => s
    | some (a, b) =>
      if a = 0 ∧ b = 0 then { s with slpTypa := 5, slpTypb := 5, haveS5 := true }
      else { s with slpTypa := a, slpTypb := b, haveS5 := true }

/-- `BOCHS ` or `QEMU  `. -/
def detectQemu (m : Memory) (sdt : ℕ) (s : AcpiState) : AcpiState :=
  if hasOemId m sdt [0x42, 0x4F, 0x43, 0x48, 0x53, 0x20] ∨ hasOemId m sdt [0x51, 0x45, 0x4D, 0x55, 0x20, 0x20] then
    { s with isQemu := true }
  else s

/-- The walk over the entries, and the slots it read. -/
structure AcpiScan where
  state : AcpiState
  dsdtPhys : ℕ := 0
  slots : List ℕ := []

/-- `dsdt_phys` from the FADT: the 64-bit address if the table is long enough to have one that is not zero. -/
def fadtDsdt (m : Memory) (hdr : ℕ) : ℕ :=
  let fadt := tableAt m hdr
  let xDsdt := if sdtLength m hdr ≥ 0x94 then fadt.load32 0x90 * 2 ^ 32 + fadt.load32 0x8C else 0
  (if xDsdt ≠ 0 then xDsdt else fadt.load32 0x28) % 2 ^ 32

/-- What an entry's table is used for. -/
def acpiTable (m : Memory) (hdr : ℕ) (t : AcpiScan) : AcpiScan :=
  if hasSignature m hdr signFACP then
    { t with
      dsdtPhys := fadtDsdt m hdr
      state := { t.state with
        pm1aCntBlk := (tableAt m hdr).load32 0x40
        pm1bCntBlk := (tableAt m hdr).load32 0x44 } }
  else if hasSignature m hdr signSSDT then { t with state := tryTableS5 m hdr t.state }
  else t

/-- One entry: the pointer in its slot is followed. -/
def acpiEntry (m : Memory) (entrySize base i : ℕ) (t : AcpiScan) : AcpiScan :=
  let slot := (base + i * entrySize % 2 ^ 32) % 2 ^ 64
  acpiTable m (if entrySize = 8 then m.load64 slot else m.load32 slot) { t with slots := slot :: t.slots }

/-- `(sdt->length - sizeof(struct sdt_header)) / entry_size`: the difference is a `size_t`, the quotient is cut
to a `uint32_t`. -/
def sdtEntries (length entrySize : ℕ) : ℕ := (length + 2 ^ 64 - sdtHeaderSize) % 2 ^ 64 / entrySize % 2 ^ 32

/-- The entry loop. -/
def acpiEntries (m : Memory) (entrySize sdt : ℕ) (s : AcpiState) : AcpiScan :=
  (List.range (sdtEntries (sdtLength m sdt) entrySize)).foldl
    (fun t i => acpiEntry m entrySize (sdt + sdtHeaderSize) i t) { state := s }

/-- After the entries: the DSDT, and the defaults. -/
def acpiFinish (m : Memory) (t : AcpiScan) : AcpiScan :=
  let s := if t.dsdtPhys ≠ 0 ∧ hasSignature m t.dsdtPhys signDSDT then tryTableS5 m t.dsdtPhys t.state else t.state
  { t with state := if s.haveS5 then s else { s with slpTypa := 5, slpTypb := 5 } }

def acpiInit (m : Memory) (s : AcpiState) : AcpiScan :=
  match findRsdp m with
  | none => { state := s }
  | some rsdp =>
    let sdt := sdtPhys m rsdp
    if SdtAccepted m sdt then acpiFinish m (acpiEntries m (entrySize m rsdp) sdt (detectQemu m sdt s))
    else { state := s }

end RaryOS.Model
