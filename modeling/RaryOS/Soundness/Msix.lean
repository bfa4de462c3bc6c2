import RaryOS.Core.Chain
import RaryOS.Model.Idt
import RaryOS.Model.Msix
import RaryOS.Soundness.KernelInput

/-! # The USB controller's interrupt

`setup_msix` finds the MSI-X capability whenever the list of capabilities has one, also in a list that comes back to
itself, and afterwards a message of the controller is the interrupt that the kernel has its handler for.
-/

namespace RaryOS.Soundness

open RaryOS.Core RaryOS.Model

section Capabilities

variable {space : ConfigSpace} {bus slot func : BitVec 8}

/-- The list of capabilities ends with a pointer that is zero. -/
def capLink (space : ConfigSpace) (bus slot func capPtr : BitVec 8) : Option (BitVec 8) :=
  if capNext space bus slot func capPtr = 0 then none else some (capNext space bus slot func capPtr)

def isMsix (space : ConfigSpace) (bus slot func capPtr : BitVec 8) : Bool := capId space bus slot func capPtr = 0x11

/-- The first MSI-X capability of the list. -/
def FirstMsix (space : ConfigSpace) (bus slot func cap : BitVec 8) : Prop :=
  capStart space bus slot func ≠ 0 ∧
    ∃ k, Chain.First (capLink space bus slot func) (isMsix space bus slot func) (capStart space bus slot func) k cap

theorem findMsixCap_eq (guard : ℕ) (capPtr : BitVec 8) :
    findMsixCap space bus slot func guard capPtr =
      Chain.search (capLink space bus slot func) (isMsix space bus slot func) guard
        (if capPtr = 0 then none else some capPtr) := by
  induction guard generalizing capPtr with
  | zero => rfl
  | succ guard ih =>
    rw [findMsixCap]
    split
    · rfl
    · rw [Chain.search, isMsix, ih, capLink]
      simp only [decide_eq_true_eq]

/-- The pointers of a list: multiples of four. -/
def capPlaces : Finset (BitVec 8) := (Finset.range 64).image fun i => BitVec.ofNat 8 (4 * i)

theorem capPlaces_card : capPlaces.card ≤ 64 := Finset.card_image_le

theorem mem_capPlaces (x : BitVec 32) : (x &&& 0xFC).setWidth 8 ∈ capPlaces := by
  generalize pointer : (x &&& 0xFC).setWidth 8 = p
  have value : p.toNat = (x.toNat &&& 0xFC) % 2 ^ 8 := by rw [← pointer]; rfl
  have multiple : p.toNat % 4 = 0 := by
    have low : (x.toNat &&& 0xFC) % 2 ^ 2 = 0 := by
      rw [Nat.and_mod_two_pow]
      exact Nat.and_zero _
    omega
  refine Finset.mem_image.mpr ⟨p.toNat / 4, Finset.mem_range.mpr (by omega), ?_⟩
  rw [Nat.mul_div_cancel' (Nat.dvd_of_mod_eq_zero multiple), BitVec.ofNat_toNat, BitVec.setWidth_eq]

/-- The 64 iterations are enough for every list, also for one that comes back to itself. -/
theorem findMsixCap_complete {cap : BitVec 8} :
    findMsixCap space bus slot func 64 (capStart space bus slot func) = some cap ↔
      FirstMsix space bus slot func cap := by
  rw [findMsixCap_eq, FirstMsix]
  split
  · next empty => exact iff_of_false (fun found => by cases found) fun first => first.1 empty
  · next start =>
    have inside : capStart space bus slot func ∈ capPlaces := mem_capPlaces _
    rw [Chain.search_complete inside (fun a _ b link => ?_) capPlaces_card]
    · exact (and_iff_right start).symm
    · rw [capLink] at link
      split at link
      · cases link
      · cases link
        exact mem_capPlaces _

/-- The status register announces a list, and this is its first MSI-X capability. -/
def HasMsix (space : ConfigSpace) (bus slot func cap : BitVec 8) : Prop :=
  pciRead32 space bus slot func 0x04 >>> 16 &&& 0x0010 ≠ 0 ∧ FirstMsix space bus slot func cap

theorem msixCap_iff {cap : BitVec 8} :
    msixCap space bus slot func = some cap ↔ HasMsix space bus slot func cap := by
  rw [msixCap]
  split
  · next none => exact iff_of_false (fun found => by cases found) fun both => both.1 none
  · next list => exact findMsixCap_complete.trans (and_iff_right list).symm

end Capabilities

/-! ## The table and the control word -/

/-- What the device does with a write to the first dword of the capability: it takes the bits for the enable and for
the function mask, the others are read-only, and nothing else changes. -/
def MsixWrites (write : ConfigWrite) (space : ConfigSpace) (bus slot func cap : BitVec 8) : Prop :=
  ∀ value, write space (configAddress bus slot func cap) value =
    Function.update space (configAddress bus slot func cap)
      (pciRead32 space bus slot func cap &&& 0x3FFFFFFF ||| value &&& 0xC0000000)

/-- The entry that is stored. -/
theorem msixEntry_read (tableAddr : BitVec 64) :
    MsixEntry.read (msixEntryStores tableAddr) tableAddr = some ⟨0xFEE00000, 0x40, false⟩ := by
  simp [MsixEntry.read, lastStore, msixEntryStores, usbIrqVector]

/-- The bits of the message control that `setup_msix` writes, at their places in the dword. -/
theorem msixControl_bits (d : BitVec 32) :
    let msgctl : BitVec 16 := (d >>> 16 &&& 0xFFFF).setWidth 16 &&& 0x3FFF ||| 1 <<< 15
    (d &&& 0x0000FFFF ||| msgctl.setWidth 32 <<< 16).getLsbD 31 = true ∧
      (d &&& 0x0000FFFF ||| msgctl.setWidth 32 <<< 16).getLsbD 30 = false := by
  simp

/-- What the device has of them. -/
theorem msixTaken_bits (old value : BitVec 32) :
    (old &&& 0x3FFFFFFF ||| value &&& 0xC0000000).getLsbD 31 = value.getLsbD 31 ∧
      (old &&& 0x3FFFFFFF ||| value &&& 0xC0000000).getLsbD 30 = value.getLsbD 30 := by
  simp

/-- The bit that `setup_msix` looks at afterwards. -/
theorem msixVerify_bit (d : BitVec 32) : ((d >>> 16 &&& 0xFFFF).setWidth 16 : BitVec 16).getLsbD 15 = d.getLsbD 31 := by
  simp

section Setup

variable {space : ConfigSpace} {write : ConfigWrite} {bus slot func cap : BitVec 8}

theorem setupMsix_none (none : msixCap space bus slot func = none) :
    setupMsix space bus slot func write = (-1, space, []) := by
  rw [setupMsix, none]

/-- With a capability, and a device that takes the control word. -/
theorem setupMsix_some (some : msixCap space bus slot func = some cap)
    (takes : MsixWrites write space bus slot func cap) :
    ∃ value, value.getLsbD 31 = true ∧ value.getLsbD 30 = false ∧
      setupMsix space bus slot func write =
        (0,
          Function.update space (configAddress bus slot func cap)
            (pciRead32 space bus slot func cap &&& 0x3FFFFFFF ||| value &&& 0xC0000000),
          msixEntryStores (msixTableAddr space bus slot func cap)) := by
  obtain ⟨on, unmasked⟩ := msixControl_bits (pciRead32 space bus slot func cap)
  refine ⟨_, on, unmasked, ?_⟩
  have size (msgctl : BitVec 16) : ¬(msgctl &&& 0x7FF) + 1 < 1 := by
    have small : (msgctl &&& 0x7FF).toNat ≤ 0x7FF := by
      rw [BitVec.toNat_and]
      exact Nat.and_le_right
    rw [BitVec.lt_def, BitVec.toNat_add]
    change ¬((msgctl &&& 0x7FF).toNat + 1) % 2 ^ 16 < 1
    omega
  rw [setupMsix, some]
  dsimp only
  rw [if_neg (size _), takes, msixVerify_bit, pciRead32, Function.update_self, (msixTaken_bits _ _).1, if_pos on]

/-- Whatever is in the configuration space, also when the list of capabilities comes back to itself: if the list has
an MSI-X capability and the device takes its control word, then `setup_msix` succeeds, turns the first one on, leaves
the rest of the configuration space, and a message of the table's first entry is the interrupt whose vector has a stub
and the driver's handler. Without such a capability it fails and writes nothing. -/
theorem msix_reaches_handler
    (takes : ∀ cap, HasMsix space bus slot func cap → MsixWrites write space bus slot func cap) :
    (∀ cap, HasMsix space bus slot func cap →
      (setupMsix space bus slot func write).1 = 0 ∧
        MsixEnabled (setupMsix space bus slot func write).2.1 bus slot func cap ∧
        (∀ address, address ≠ configAddress bus slot func cap →
          (setupMsix space bus slot func write).2.1 address = space address) ∧
        ∃ v,
          (MsixEntry.read (setupMsix space bus slot func write).2.2 (msixTableAddr space bus slot func cap)).bind
              MsixEntry.vector = some v ∧
            stubOf v = some (.irq v) ∧ kernelHandlerOf v = some .usb) ∧
      ((∀ cap, ¬HasMsix space bus slot func cap) → setupMsix space bus slot func write = (-1, space, [])) := by
  refine ⟨fun cap has => ?_, fun none => ?_⟩
  · obtain ⟨value, on, unmasked, done⟩ := setupMsix_some (msixCap_iff.mpr has) (takes cap has)
    obtain ⟨bit31, bit30⟩ := msixTaken_bits (pciRead32 space bus slot func cap) value
    have control : pciRead32 (setupMsix space bus slot func write).2.1 bus slot func cap =
        pciRead32 space bus slot func cap &&& 0x3FFFFFFF ||| value &&& 0xC0000000 := by
      rw [done]
      exact Function.update_self _ _ _
    refine ⟨by rw [done], ?_, fun address other => ?_, 0x40, ?_, by decide, by decide⟩
    · rw [MsixEnabled, control, bit31, bit30]
      exact ⟨on, unmasked⟩
    · rw [done]
      exact Function.update_of_ne other _ _
    · rw [done]
      dsimp only
      rw [msixEntry_read]
      decide
  · refine setupMsix_none (Option.eq_none_iff_forall_ne_some.mpr fun cap found => ?_)
    exact none cap (msixCap_iff.mp found)

end Setup

/-- A controller whose list of capabilities goes in a circle. -/
def sampleMsixSpace : ConfigSpace := fun address =>
  ([(configAddress 0 2 0 0x04, 0x00100007), (configAddress 0 2 0 0x34, 0x40), (configAddress 0 2 0 0x40, 0x5005),
    (configAddress 0 2 0 0x50, 0x400F4011), (configAddress 0 2 0 0x54, 0x2000),
    (configAddress 0 2 0 0x10, 0xFEBF0004)].lookup address).getD 0

/-- It takes the two bits of the control word. -/
def sampleMsixWrite : ConfigWrite := fun space address value =>
  Function.update space address (space address &&& 0x3FFFFFFF ||| value &&& 0xC0000000)

theorem msix_reaches_handler_sample :
    (setupMsix sampleMsixSpace 0 2 0 sampleMsixWrite).1 = 0 ∧
      MsixEnabled (setupMsix sampleMsixSpace 0 2 0 sampleMsixWrite).2.1 0 2 0 0x50 := by
  have has : HasMsix sampleMsixSpace 0 2 0 0x50 := msixCap_iff.mp (by decide)
  have takes : ∀ cap, HasMsix sampleMsixSpace 0 2 0 cap → MsixWrites sampleMsixWrite sampleMsixSpace 0 2 0 cap :=
    fun _ _ _ => rfl
  obtain ⟨result, enabled, -, -⟩ := (msix_reaches_handler takes).1 0x50 has
  exact ⟨result, enabled⟩

end RaryOS.Soundness
