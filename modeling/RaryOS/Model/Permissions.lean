import RaryOS.Model.Vmm

/-! # Permissions along the page walk

The processor lets a user-mode access, or a write, pass only if every entry that the walk of the
address reads allows it.
-/

namespace RaryOS.Model

open RaryOS.Core

def entryUser (entry : ℕ) : Bool := entry &&& pageUser != 0
def entryWritable (entry : ℕ) : Bool := entry &&& pageWritable != 0

/-- The entries that the walk of an address reads, the one that ends it included. -/
def walkEntries (m : Memory) (pml4 virt : ℕ) : List ℕ :=
  let pml4e := tableEntry m pml4 (pml4Index virt)
  if !entryPresent pml4e || entryPs pml4e then [pml4e]
  else
    let pdpte := tableEntry m (pml4e &&& pteAddrMask) (pdptIndex virt)
    if !entryPresent pdpte || entryPs pdpte then [pml4e, pdpte]
    else
      let pde := tableEntry m (pdpte &&& pteAddrMask) (pdIndex virt)
      if !entryPresent pde || entryPs pde then [pml4e, pdpte, pde]
      else [pml4e, pdpte, pde, tableEntry m (pde &&& pteAddrMask) (ptIndex virt)]

/-- User mode may access the address. -/
def effectiveUser (m : Memory) (pml4 virt : ℕ) : Bool := (walkEntries m pml4 virt).all entryUser

/-- The address may be written to. -/
def effectiveWritable (m : Memory) (pml4 virt : ℕ) : Bool := (walkEntries m pml4 virt).all entryWritable

end RaryOS.Model
