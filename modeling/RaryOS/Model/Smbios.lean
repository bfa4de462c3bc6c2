import RaryOS.Core.Reading

/-! # The SMBIOS table

`smbios_init` looks for an entry point between 0xF0000 and 0x100000. `find_field` walks over the structures of the
table: each has a formatted part, whose length is in its header, and strings that end with a zero byte each and
with another one after the last. Nothing but these bytes ends the scans, so they run on fuel; `none` means that a
scan was still running. `NULL` is 0.
-/

namespace RaryOS.Model

open RaryOS.Core

/-! ## Strings -/

/-- `while (*p) p++;` -/
def skipText (m : Memory) : ℕ → ℕ → Reading (Option ℕ)
  | 0, _ => return none
  | fuel + 1, p => do
    if (← m.readByte p) ≠ 0 then skipText m fuel (p + 1) else return some p

/-- The loop of `smbios_string`, at the string `n`. -/
def smbiosStringFrom (m : Memory) (idx : BitVec 8) : ℕ → BitVec 8 → ℕ → Reading (Option ℕ)
  | 0, _, _ => return none
  | fuel + 1, n, p => do
    if (← m.readByte p) ≠ 0 then
      if n = idx then return some p
      else
        match ← skipText m fuel p with
        | none => return none
        | some p => smbiosStringFrom m idx fuel (n + 1) (p + 1)
    else return some 0

/-- `smbios_string`: the string `idx` of the structure at `hdr`. -/
def smbiosString (m : Memory) (fuel hdr : ℕ) (idx : BitVec 8) : Reading (Option ℕ) :=
  if idx = 0 then return some 0
  else do smbiosStringFrom m idx fuel 1 (hdr + (← m.readByte (hdr + 1)).toNat)

/-! ## Structures -/

/-- `*p || *(p + 1)`. -/
def nonzeroAt (m : Memory) (p : ℕ) : Reading Bool := do
  if (← m.readByte p) ≠ 0 then return true else return (← m.readByte (p + 1)) ≠ 0

/-- `p[0] == 0 && p[1] == 0`. -/
def zerosAt (m : Memory) (p : ℕ) : Reading Bool := do
  if (← m.readByte p) = 0 then return (← m.readByte (p + 1)) = 0 else return false

/-- `while (*p || *(p + 1)) { if (p[0] == 0 && p[1] == 0) break; p++; }` -/
def skipStrings (m : Memory) : ℕ → ℕ → Reading (Option ℕ)
  | 0, _ => return none
  | fuel + 1, p => do
    if ← nonzeroAt m p then
      if ← zerosAt m p then return some p else skipStrings m fuel (p + 1)
    else return some p

/-- The string that the structure at `p` has for the field, if it is of the type and long enough. -/
def structureField (m : Memory) (type offset : BitVec 8) (fuel p : ℕ) : Reading (Option ℕ) := do
  if (← m.readByte p) = type then
    if offset < (← m.readByte (p + 1)) then smbiosString m fuel p (← m.readByte (p + offset.toNat))
    else return some 0
  else return some 0

/-- The loop of `find_field`, with the number of structures left. -/
def findFieldFrom (m : Memory) (type offset : BitVec 8) (fuel : ℕ) : ℕ → ℕ → Reading (Option ℕ)
  | 0, _ => return some 0
  | left + 1, p => do
    if (← m.readByte p) = 127 then return some 0
    else if (← m.readByte (p + 1)) < 4 then return some 0
    else
      match ← structureField m type offset fuel p with
      | none => return none
      | some s =>
        if s ≠ 0 then return some s
        else
          match ← skipStrings m fuel (p + (← m.readByte (p + 1)).toNat) with
          | none => return none
          | some p => findFieldFrom m type offset fuel left (p + 2)

/-- `smbios_table` and `smbios_count`. -/
structure SmbiosState where
  table : ℕ := 0
  count : ℕ := 0
deriving DecidableEq, Repr

/-- `find_field`. -/
def findField (m : Memory) (s : SmbiosState) (type offset : BitVec 8) (fuel : ℕ) : Reading (Option ℕ) :=
  if s.table = 0 then return some 0 else findFieldFrom m type offset fuel s.count s.table

def smbiosGetBoardVendor (m : Memory) (s : SmbiosState) (fuel : ℕ) : Reading (Option ℕ) := findField m s 2 0x04 fuel
def smbiosGetBoardName (m : Memory) (s : SmbiosState) (fuel : ℕ) : Reading (Option ℕ) := findField m s 2 0x05 fuel

/-! ## The entry point -/

/-- The fields of `struct smbios_ep` that matter. -/
structure SmbiosEp where
  signature : List (BitVec 8)
  length : ℕ
  tableLength : ℕ
  tableAddress : ℕ
  numStructures : ℕ
deriving DecidableEq, Repr

def SmbiosEp.read (m : Memory) (p : ℕ) : SmbiosEp where
  signature := [m p, m (p + 1), m (p + 2), m (p + 3)]
  length := m.load (p + 5) 1
  tableLength := m.load (p + 22) 2
  tableAddress := m.load32 (p + 24)
  numStructures := m.load (p + 28) 2

/-- `checksum_ok`. -/
def checksumOk (m : Memory) (p len : ℕ) : Bool := (List.range len).foldl (fun sum i => sum + m (p + i)) 0 = 0

/-- The checks of an entry point. -/
def SmbiosEp.Accepted (m : Memory) (p : ℕ) : Prop :=
  let ep := SmbiosEp.read m p
  ep.signature = [0x5F, 0x53, 0x4D, 0x5F] ∧ 0x1F ≤ ep.length ∧ checksumOk m p ep.length = true ∧
    0x1000 ≤ ep.tableAddress

instance SmbiosEp.Accepted.decidable (m : Memory) (p : ℕ) : Decidable (SmbiosEp.Accepted m p) :=
  inferInstanceAs (Decidable (_ ∧ _))

/-- `smbios_init`: the first entry point accepted gives the table. -/
def smbiosInit (m : Memory) : SmbiosState :=
  match (List.range' 0xF0000 0x1000 16).find? (SmbiosEp.Accepted m ·) with
  | none => {}
  | some p => { table := (SmbiosEp.read m p).tableAddress, count := (SmbiosEp.read m p).numStructures }

end RaryOS.Model
