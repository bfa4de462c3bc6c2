import RaryOS.Model.Pmm

/-! # The virtual memory manager and the page walk

`vmm.c` edits the page tables through the identity map: a table is the array of 512 entries at its
physical address. Tables come from `pmm_alloc_page`; what `vmm.c` sees of the page allocator is a
parameter. `walk` is what the processor makes of the tables. The `invlpg` after a write changes no
memory and is left out.
-/

namespace RaryOS.Model

open RaryOS.Core

def pagePresent : ℕ := 2 ^ 0
def pageWritable : ℕ := 2 ^ 1
def pageUser : ℕ := 2 ^ 2
def pageCacheDisable : ℕ := 2 ^ 4
def pagePs : ℕ := 2 ^ 7

def pteAddrMask : ℕ := 0x000FFFFFFFFFF000

def pml4Index (addr : ℕ) : ℕ := addr / 2 ^ 39 % 512
def pdptIndex (addr : ℕ) : ℕ := addr / 2 ^ 30 % 512
def pdIndex (addr : ℕ) : ℕ := addr / 2 ^ 21 % 512
def ptIndex (addr : ℕ) : ℕ := addr / 2 ^ 12 % 512

/-- Memory and `pmm_alloc_page`, as `vmm.c` uses them. -/
structure PageAllocator (σ : Type*) where
  mem : σ → Memory
  withMem : σ → Memory → σ
  allocPage : σ → ℕ × σ
  mem_withMem : ∀ s m, mem (withMem s m) = m

/-- The allocator of `pmm.c`. -/
def pmmAllocator : PageAllocator PmmState where
  mem := PmmState.mem
  withMem s m := { s with mem := m }
  allocPage := pmmAllocPage
  mem_withMem _ _ := rfl

/-- `table[idx]`. -/
def tableEntry (m : Memory) (table idx : ℕ) : ℕ := m.load64 (table + 8 * idx)

/-- `table[idx] = entry`. -/
def setTableEntry (m : Memory) (table idx entry : ℕ) : Memory := m.store64 (table + 8 * idx) entry

section Vmm

variable {σ : Type*} (pmm : PageAllocator σ)

/-- `vmm_next_table`: the table behind an entry, allocated if there is none. `0` is `NULL`. -/
def vmmNextTable (s : σ) (table idx : ℕ) : ℕ × σ :=
  let entry := tableEntry (pmm.mem s) table idx
  if entry &&& pagePresent ≠ 0 then
    if entry &&& pagePs ≠ 0 then (0, s) else (entry &&& pteAddrMask, s)
  else
    let (newTable, s) := pmm.allocPage s
    if newTable = 0 then (0, s)
    else
      let m := (pmm.mem s).fill newTable 4096 0
      let m := setTableEntry m table idx
        ((newTable &&& pteAddrMask) ||| pagePresent ||| pageWritable ||| pageUser)
      (newTable, pmm.withMem s m)

/-- `vmm_map_page`. -/
def vmmMapPage (pml4 : ℕ) (s : σ) (virt phys flags : ℕ) : σ :=
  let (pdpt, s) := vmmNextTable pmm s pml4 (pml4Index virt)
  if pdpt = 0 then s
  else
    let (pd, s) := vmmNextTable pmm s pdpt (pdptIndex virt)
    if pd = 0 then s
    else
      let (pt, s) := vmmNextTable pmm s pd (pdIndex virt)
      if pt = 0 then s
      else
        let newEntry := (phys &&& pteAddrMask) ||| pagePresent ||| (flags &&& (2 ^ 64 - 1 - pagePs))
        pmm.withMem s (setTableEntry (pmm.mem s) pt (ptIndex virt) newEntry)

/-- `vmm_map_huge_2mb`. -/
def vmmMapHuge2mb (pml4 : ℕ) (s : σ) (virt phys flags : ℕ) : σ :=
  if virt % 0x200000 ≠ 0 ∨ phys % 0x200000 ≠ 0 then s
  else
    let (pdpt, s) := vmmNextTable pmm s pml4 (pml4Index virt)
    if pdpt = 0 then s
    else
      let (pd, s) := vmmNextTable pmm s pdpt (pdptIndex virt)
      if pd = 0 then s
      else
        let newEntry :=
          (phys &&& pteAddrMask) ||| pagePresent ||| pagePs ||| (flags &&& (2 ^ 64 - 1 - pagePs))
        pmm.withMem s (setTableEntry (pmm.mem s) pd (pdIndex virt) newEntry)

/-- `vmm_map_huge_1gb`. -/
def vmmMapHuge1gb (pml4 : ℕ) (s : σ) (virt phys flags : ℕ) : σ :=
  if virt % 0x40000000 ≠ 0 ∨ phys % 0x40000000 ≠ 0 then s
  else
    let (pdpt, s) := vmmNextTable pmm s pml4 (pml4Index virt)
    if pdpt = 0 then s
    else
      let newEntry :=
        (phys &&& pteAddrMask) ||| pagePresent ||| pagePs ||| (flags &&& (2 ^ 64 - 1 - pagePs))
      pmm.withMem s (setTableEntry (pmm.mem s) pdpt (pdptIndex virt) newEntry)

end Vmm

/-! ## The processor's walk -/

inductive PageFault where
  | notPresent
  | reservedBit
deriving DecidableEq, Repr

/-- Where an address is mapped, and the flags of the entry that maps it. -/
structure Leaf where
  phys : ℕ
  flags : ℕ
deriving DecidableEq, Repr

def entryPresent (entry : ℕ) : Bool := entry &&& pagePresent != 0
def entryPs (entry : ℕ) : Bool := entry &&& pagePs != 0

/-- The translation of `virt` by an entry that maps a page of `2 ^ shift` bytes. -/
def entryLeaf (entry shift virt : ℕ) : Leaf where
  phys := (entry &&& pteAddrMask) / 2 ^ shift * 2 ^ shift + virt % 2 ^ shift
  flags := entry &&& (2 ^ 64 - 1 - pteAddrMask)

/-- The four-level walk. -/
def walk (m : Memory) (pml4 virt : ℕ) : Except PageFault Leaf :=
  let pml4e := tableEntry m pml4 (pml4Index virt)
  if !entryPresent pml4e then .error .notPresent
  else if entryPs pml4e then .error .reservedBit
  else
    let pdpte := tableEntry m (pml4e &&& pteAddrMask) (pdptIndex virt)
    if !entryPresent pdpte then .error .notPresent
    else if entryPs pdpte then .ok (entryLeaf pdpte 30 virt)
    else
      let pde := tableEntry m (pdpte &&& pteAddrMask) (pdIndex virt)
      if !entryPresent pde then .error .notPresent
      else if entryPs pde then .ok (entryLeaf pde 21 virt)
      else
        let pte := tableEntry m (pde &&& pteAddrMask) (ptIndex virt)
        if !entryPresent pte then .error .notPresent else .ok (entryLeaf pte 12 virt)

end RaryOS.Model
