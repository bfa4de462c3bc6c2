import RaryOS.Model.Vmm

/-! # The boot page tables

`boot_main` builds one `pml4`, one `pdpt` and four page directories `pd`, which map the first 4 GiB to
themselves by 2 MiB pages. It runs in 32-bit mode and writes each entry as two words.
-/

namespace RaryOS.Model

open RaryOS.Core

/-- `movl low, (base, ecx, 8); movl high, 4(base, ecx, 8)`. -/
def bootWrite (m : Memory) (base ecx low : ℕ) : Memory :=
  (m.store32 (base + 8 * ecx) low).store32 (base + 8 * ecx + 4) 0

/-- Loops 1 and 2: clear the first `count` entries of a table. -/
def bootClear (table : ℕ) : (count : ℕ) → Memory → Memory
  | 0, m => m
  | ecx + 1, m => bootWrite (bootClear table ecx m) table ecx 0

/-- The entry for the 2 MiB page at `edx`: below 1 GiB for ring 3, from 3 GiB on uncached. -/
def bootPdEntry (edx : ℕ) : ℕ :=
  if 0xC0000000 ≤ edx then edx ||| 0x93
  else if 0x40000000 ≤ edx then edx ||| 0x83
  else edx ||| 0x87

/-- Loop 3: the first `count` entries of the page directories. -/
def bootFillPd (pd : ℕ) : (count : ℕ) → Memory → Memory
  | 0, m => m
  | ecx + 1, m => bootWrite (bootFillPd pd ecx m) pd ecx (bootPdEntry (ecx * 0x200000 % 2 ^ 32))

/-- The page tables that `boot_main` leaves: the loops, then the links from `pdpt` and `pml4`. Only
the low words of the links are written. -/
def bootMainTables (m : Memory) (pml4 pdpt pd : ℕ) : Memory :=
  let m := bootClear pml4 512 m
  let m := bootClear pdpt 512 m
  let m := bootFillPd pd 2048 m
  let eax := pd ||| 0x07
  let m := m.store32 pdpt eax
  let eax := (eax + 0x1000) % 2 ^ 32 &&& (2 ^ 32 - 1 - 0x04)
  let m := m.store32 (pdpt + 8) eax
  let eax := (eax + 0x1000) % 2 ^ 32
  let m := m.store32 (pdpt + 16) eax
  let eax := (eax + 0x1000) % 2 ^ 32
  let m := m.store32 (pdpt + 24) eax
  m.store32 pml4 (pdpt ||| 0x07)

end RaryOS.Model
