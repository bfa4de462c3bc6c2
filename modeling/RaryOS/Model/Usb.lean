import RaryOS.Model.Vmm

/-! # Finding and mapping the xHCI registers

`usb_init` reads the first BAR of the controller from its PCI configuration space and maps 1 MiB of
registers to themselves, page by page and uncached. The scan of the PCI bus is left out: what it finds is
a parameter, and `pciRead32` is `pci_read32` for the controller found. The command register does not
matter here.
-/

namespace RaryOS.Model

/-- `pci_read_bar64`: the address, and whether the BAR is one of I/O space. -/
def pciReadBar64 (pciRead32 : ℕ → ℕ) (offset : ℕ) : ℕ × Bool :=
  let bar0 := pciRead32 offset
  if bar0 &&& 1 ≠ 0 then (bar0 &&& 0xFFFFFFFC, true)
  else
    let low := bar0 &&& 0xFFFFFFF0
    if bar0 / 2 &&& 0x3 = 0x2 then (pciRead32 (offset + 4) * 2 ^ 32 ||| low, false) else (low, false)

/-- The flags of the register pages. -/
def usbPageFlags : ℕ := pagePresent ||| pageWritable ||| pageCacheDisable

/-- The address of page `i`. -/
def usbPage (physPageStart i : ℕ) : ℕ := (physPageStart + i * 4096) % 2 ^ 64

section Usb

variable {σ : Type*} (pmm : PageAllocator σ) (pml4 : ℕ)

/-- The first `i` rounds of the mapping loop. -/
def usbMapPages (s : σ) (physPageStart : ℕ) : (i : ℕ) → σ
  | 0 => s
  | i + 1 =>
    let addr := usbPage physPageStart i
    vmmMapPage pmm pml4 (usbMapPages s physPageStart i) addr addr usbPageFlags

/-- `usb_init` up to the start of the driver: the state, and the virtual address of the registers. -/
def usbInit (s : σ) (device : Option (ℕ → ℕ)) : Option (σ × ℕ) :=
  match device with
  | none => none
  | some pciRead32 =>
    let (bar, isIo) := pciReadBar64 pciRead32 0x10
    if bar = 0 ∨ isIo = true then none
    else
      let physPageStart := bar &&& (2 ^ 64 - 1 - 0xFFF)
      some (usbMapPages pmm pml4 s physPageStart 256, physPageStart + (bar &&& 0xFFF))

end Usb

end RaryOS.Model
