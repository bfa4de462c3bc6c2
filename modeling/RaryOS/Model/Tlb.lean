import RaryOS.Model.Vmm

/-! # The translation lookaside buffer

The processor may keep any translation that a walk gave, for all addresses of its page, until `invlpg`
drops the translations of the page that contains an address. `vmm_flush` decides whether a mapping
function uses `invlpg`; the functions here give the address it is used on.
-/

namespace RaryOS.Model

open RaryOS.Core

/-- A virtual address that the processor accepts. -/
def Canonical (virt : ℕ) : Prop := virt < 2 ^ 47 ∨ 2 ^ 64 - 2 ^ 47 ≤ virt ∧ virt < 2 ^ 64

instance (virt : ℕ) : Decidable (Canonical virt) := inferInstanceAs (Decidable (_ ∨ _))

/-- The size of the page that maps an address, where the walk succeeds, as a power of two. -/
def walkShift (m : Memory) (pml4 virt : ℕ) : ℕ :=
  let pml4e := tableEntry m pml4 (pml4Index virt)
  let pdpte := tableEntry m (pml4e &&& pteAddrMask) (pdptIndex virt)
  if entryPs pdpte then 30
  else
    let pde := tableEntry m (pdpte &&& pteAddrMask) (pdIndex virt)
    if entryPs pde then 21 else 12

/-- A cached translation, of the addresses of one page. -/
structure TlbEntry where
  shift : ℕ
  page : ℕ
  base : ℕ
  flags : ℕ
deriving DecidableEq, Repr

namespace TlbEntry

def Covers (e : TlbEntry) (virt : ℕ) : Prop := virt / 2 ^ e.shift = e.page

instance (e : TlbEntry) (virt : ℕ) : Decidable (e.Covers virt) := inferInstanceAs (Decidable (_ = _))

def leaf (e : TlbEntry) (virt : ℕ) : Leaf := ⟨e.base + virt % 2 ^ e.shift, e.flags⟩

end TlbEntry

/-- What a walk of an address adds. -/
def tlbFill (m : Memory) (pml4 virt : ℕ) : List TlbEntry :=
  match walk m pml4 virt with
  | .ok leaf =>
    let shift := walkShift m pml4 virt
    [⟨shift, virt / 2 ^ shift, leaf.phys - virt % 2 ^ shift, leaf.flags⟩]
  | .error _ => []

def invlpg (tlb : List TlbEntry) (virt : ℕ) : List TlbEntry := tlb.filter fun e => ¬e.Covers virt

/-- `vmm_flush`. -/
def vmmFlush (virt oldEntry newEntry : ℕ) : Option ℕ := if oldEntry ≠ newEntry then some virt else none

section Vmm

variable {σ : Type*} (pmm : PageAllocator σ)

/-- The `invlpg` of `vmm_map_page`. -/
def vmmMapPageFlush (pml4 : ℕ) (s : σ) (virt phys flags : ℕ) : Option ℕ :=
  let (pdpt, s) := vmmNextTable pmm s pml4 (pml4Index virt)
  if pdpt = 0 then none
  else
    let (pd, s) := vmmNextTable pmm s pdpt (pdptIndex virt)
    if pd = 0 then none
    else
      let (pt, s) := vmmNextTable pmm s pd (pdIndex virt)
      if pt = 0 then none
      else
        let newEntry := (phys &&& pteAddrMask) ||| pagePresent ||| (flags &&& (2 ^ 64 - 1 - pagePs))
        vmmFlush virt (tableEntry (pmm.mem s) pt (ptIndex virt)) newEntry

/-- The `invlpg` of `vmm_map_huge_2mb`. -/
def vmmMapHuge2mbFlush (pml4 : ℕ) (s : σ) (virt phys flags : ℕ) : Option ℕ :=
  if virt % 0x200000 ≠ 0 ∨ phys % 0x200000 ≠ 0 then none
  else
    let (pdpt, s) := vmmNextTable pmm s pml4 (pml4Index virt)
    if pdpt = 0 then none
    else
      let (pd, s) := vmmNextTable pmm s pdpt (pdptIndex virt)
      if pd = 0 then none
      else
        let newEntry :=
          (phys &&& pteAddrMask) ||| pagePresent ||| pagePs ||| (flags &&& (2 ^ 64 - 1 - pagePs))
        vmmFlush virt (tableEntry (pmm.mem s) pd (pdIndex virt)) newEntry

/-- The `invlpg` of `vmm_map_huge_1gb`. -/
def vmmMapHuge1gbFlush (pml4 : ℕ) (s : σ) (virt phys flags : ℕ) : Option ℕ :=
  if virt % 0x40000000 ≠ 0 ∨ phys % 0x40000000 ≠ 0 then none
  else
    let (pdpt, s) := vmmNextTable pmm s pml4 (pml4Index virt)
    if pdpt = 0 then none
    else
      let newEntry :=
        (phys &&& pteAddrMask) ||| pagePresent ||| pagePs ||| (flags &&& (2 ^ 64 - 1 - pagePs))
      vmmFlush virt (tableEntry (pmm.mem s) pdpt (pdptIndex virt)) newEntry

end Vmm

end RaryOS.Model
