import RaryOS.Model.Acpi

/-! # The entries of the table of tables

The number of entries is computed from the length in the header, which nothing checks. For a table shorter than
its header the difference wraps around, and what is left of the quotient is close to 2^32.
-/

namespace RaryOS.Soundness

open RaryOS.Core RaryOS.Model

section Entries

variable {length size : ℕ}

theorem sdtEntries_of_le (bound : length < 2 ^ 32) (long : sdtHeaderSize ≤ length) :
    sdtEntries length size = (length - sdtHeaderSize) / size := by
  have difference : (length + 2 ^ 64 - sdtHeaderSize) % 2 ^ 64 = length - sdtHeaderSize := by
    rw [sdtHeaderSize] at long ⊢
    omega
  have small : (length - sdtHeaderSize) / size < 2 ^ 32 :=
    Nat.lt_of_le_of_lt (Nat.div_le_self _ _) (Nat.lt_of_le_of_lt (Nat.sub_le _ _) bound)
  rw [sdtEntries, difference, Nat.mod_eq_of_lt small]

/-- A short table has entries, by the count of the code. -/
theorem sdtEntries_pos_of_lt (sizes : size = 4 ∨ size = 8) (short : length < sdtHeaderSize) :
    0 < sdtEntries length size := by
  rw [sdtHeaderSize] at short
  rw [sdtEntries, sdtHeaderSize]
  rcases sizes with rfl | rfl <;> omega

end Entries

section Walk

variable {m : Memory} {size base : ℕ}

theorem slots_acpiTable (hdr : ℕ) (t : AcpiScan) : (acpiTable m hdr t).slots = t.slots := by
  rw [acpiTable]
  split
  · rfl
  split <;> rfl

theorem slots_acpiFinish (t : AcpiScan) : (acpiFinish m t).slots = t.slots := rfl

theorem slots_acpiEntry (i : ℕ) (t : AcpiScan) :
    (acpiEntry m size base i t).slots = (base + i * size % 2 ^ 32) % 2 ^ 64 :: t.slots :=
  slots_acpiTable _ _

theorem mem_slots_foldl (indices : List ℕ) (t : AcpiScan) (slot : ℕ) :
    slot ∈ (indices.foldl (fun t i => acpiEntry m size base i t) t).slots ↔
      slot ∈ t.slots ∨ ∃ i ∈ indices, slot = (base + i * size % 2 ^ 32) % 2 ^ 64 := by
  induction indices generalizing t with
  | nil => simp only [List.foldl_nil, List.not_mem_nil, false_and, exists_false, or_false]
  | cons i rest ih =>
    rw [List.foldl_cons, ih, slots_acpiEntry, List.mem_cons, List.exists_mem_cons_iff]
    tauto

/-- Slot `i` is at `base + i * entry_size`, computed in 32 bits. -/
theorem mem_slots_acpiEntries (s : AcpiState) (sdt slot : ℕ) :
    slot ∈ (acpiEntries m size sdt s).slots ↔
      ∃ i < sdtEntries (sdtLength m sdt) size, slot = (sdt + sdtHeaderSize + i * size % 2 ^ 32) % 2 ^ 64 := by
  rw [acpiEntries, mem_slots_foldl]
  simp only [List.not_mem_nil, false_or, List.mem_range]

end Walk

section Init

variable {m : Memory} {rsdp : ℕ}

theorem entrySize_eq (m : Memory) (rsdp : ℕ) : entrySize m rsdp = 4 ∨ entrySize m rsdp = 8 := by
  rw [entrySize]
  split
  · exact Or.inr rfl
  · exact Or.inl rfl

theorem sdtPhys_lt (m : Memory) (rsdp : ℕ) : sdtPhys m rsdp < 2 ^ 32 := by
  rw [sdtPhys]
  split
  · exact Nat.mod_lt _ (by decide)
  · exact Memory.load32_lt _ _

theorem slots_acpiInit (s : AcpiState) (found : findRsdp m = some rsdp) (accepted : SdtAccepted m (sdtPhys m rsdp)) :
    (acpiInit m s).slots =
      (acpiEntries m (entrySize m rsdp) (sdtPhys m rsdp) (detectQemu m (sdtPhys m rsdp) s)).slots := by
  have init : acpiInit m s =
      acpiFinish m (acpiEntries m (entrySize m rsdp) (sdtPhys m rsdp) (detectQemu m (sdtPhys m rsdp) s)) := by
    simp only [acpiInit, found]
    rw [if_pos accepted]
  rw [init, slots_acpiFinish]

/-- For every table of tables with an accepted signature and any length: the slots that the entry loop reads lie
between its header and its end, if and only if the length is not below that of the header. -/
theorem acpi_slots_inside_iff (s : AcpiState) (found : findRsdp m = some rsdp)
    (accepted : SdtAccepted m (sdtPhys m rsdp)) :
    (∀ slot ∈ (acpiInit m s).slots, sdtPhys m rsdp + sdtHeaderSize ≤ slot ∧
      slot + entrySize m rsdp ≤ sdtPhys m rsdp + sdtLength m (sdtPhys m rsdp)) ↔
      sdtHeaderSize ≤ sdtLength m (sdtPhys m rsdp) := by
  have phys := sdtPhys_lt m rsdp
  have bound : sdtLength m (sdtPhys m rsdp) < 2 ^ 32 := Memory.load32_lt _ _
  rw [slots_acpiInit s found accepted]
  simp only [mem_slots_acpiEntries, forall_exists_index, and_imp]
  constructor
  · intro inside
    -- the first slot of a short table is past its end
    by_contra short
    have entries := sdtEntries_pos_of_lt (entrySize_eq m rsdp) (Nat.lt_of_not_le short)
    have first := (inside _ 0 entries rfl).2
    rw [Nat.zero_mul, Nat.zero_mod, Nat.add_zero, sdtHeaderSize, Nat.mod_eq_of_lt (by omega)] at first
    rw [sdtHeaderSize] at short
    omega
  · rintro long slot i entry rfl
    rw [sdtEntries_of_le bound long, sdtHeaderSize] at entry
    rw [sdtHeaderSize] at long ⊢
    rcases entrySize_eq m rsdp with four | eight
    · rw [four] at entry ⊢
      omega
    · rw [eight] at entry ⊢
      omega

end Init

/-- A root pointer at 0xE0000 and a table of tables of the given length at 0x1000, with empty slots. -/
def sampleAcpi (length : BitVec 8) : Memory := fun address =>
  ([(0xE0000, 0x52), (0xE0001, 0x53), (0xE0002, 0x44), (0xE0003, 0x20), (0xE0004, 0x50), (0xE0005, 0x54),
    (0xE0006, 0x52), (0xE0007, 0x20), (0xE0008, 0xD1), (0xE0011, 0x10), (0x1000, 0x52), (0x1001, 0x53),
    (0x1002, 0x44), (0x1003, 0x54), (0x1004, length)].lookup address).getD 0

/-- Without an EBDA the search begins at 0xE0000. -/
theorem findRsdp_first {m : Memory} (noEbda : m.load 0x40E 2 = 0) (rsdp : isRsdp m 0xE0000 = true) :
    findRsdp m = some 0xE0000 := by
  have first : (List.range' 0xE0000 0x2000 16).find? (isRsdp m) = some 0xE0000 := by
    rw [show 0x2000 = 0x1FFF + 1 from rfl, List.range'_succ]
    exact List.find?_cons_of_pos rsdp
  simp only [findRsdp, noEbda, first]
  rfl

theorem acpi_slots_inside_iff_sample :
    sdtHeaderSize ≤ sdtLength (sampleAcpi 44) (sdtPhys (sampleAcpi 44) 0xE0000) ∧
      ∀ slot ∈ (acpiInit (sampleAcpi 44) {}).slots,
        sdtPhys (sampleAcpi 44) 0xE0000 + sdtHeaderSize ≤ slot ∧ slot + entrySize (sampleAcpi 44) 0xE0000 ≤
          sdtPhys (sampleAcpi 44) 0xE0000 + sdtLength (sampleAcpi 44) (sdtPhys (sampleAcpi 44) 0xE0000) := by
  have long : sdtHeaderSize ≤ sdtLength (sampleAcpi 44) (sdtPhys (sampleAcpi 44) 0xE0000) := by decide +kernel
  exact ⟨long, (acpi_slots_inside_iff {} (findRsdp_first rfl (by decide +kernel)) (by decide +kernel)).mpr long⟩

/-- A table of 32 bytes. -/
theorem acpi_slots_inside_fails :
    findRsdp (sampleAcpi 32) = some 0xE0000 ∧ sdtPhys (sampleAcpi 32) 0xE0000 = 0x1000 ∧
      SdtAccepted (sampleAcpi 32) 0x1000 ∧ sdtLength (sampleAcpi 32) 0x1000 = 32 ∧
      ∃ slot ∈ (acpiInit (sampleAcpi 32) {}).slots, ¬slot + 4 ≤ 0x1000 + 32 := by
  have found : findRsdp (sampleAcpi 32) = some 0xE0000 := findRsdp_first rfl (by decide +kernel)
  have phys : sdtPhys (sampleAcpi 32) 0xE0000 = 0x1000 := by decide +kernel
  have accepted : SdtAccepted (sampleAcpi 32) 0x1000 := by decide +kernel
  have length : sdtLength (sampleAcpi 32) 0x1000 = 32 := by decide +kernel
  refine ⟨found, phys, accepted, length, 0x1024, ?_, by decide⟩
  rw [slots_acpiInit {} found (phys ▸ accepted), mem_slots_acpiEntries, phys, length]
  exact ⟨0, sdtEntries_pos_of_lt (entrySize_eq _ _) (by decide), rfl⟩

end RaryOS.Soundness
