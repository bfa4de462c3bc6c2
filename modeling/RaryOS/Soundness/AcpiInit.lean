import RaryOS.Soundness.AcpiSlots

/-! # What `acpi_init` chooses

The sleep types are those of the first SSDT that has a `_S5_` package, in the order of the entries, or else of the
DSDT of the last FADT, whatever the order of the SSDTs and the FADTs. The control registers are the last FADT's.
-/

namespace RaryOS.Soundness

open RaryOS.Core RaryOS.Model

section Tables

variable (m : Memory)

/-- The tables to which the entries point. -/
def sdtTables (rsdp : ℕ) : List ℕ :=
  let size := entrySize m rsdp
  let base := sdtPhys m rsdp + sdtHeaderSize
  (List.range (sdtEntries (sdtLength m (sdtPhys m rsdp)) size)).map fun i =>
    let slot := (base + i * size % 2 ^ 32) % 2 ^ 64
    if size = 8 then m.load64 slot else m.load32 slot

def lastFadt (tables : List ℕ) : Option ℕ := (tables.filter fun hdr => hasSignature m hdr signFACP).getLast?

/-- The DSDT of a FADT, when there is one. -/
def dsdtOf (fadt : Option ℕ) : Option ℕ :=
  (fadt.map (fadtDsdt m)).filter fun dsdt => dsdt ≠ 0 ∧ hasSignature m dsdt signDSDT

/-- The tables that are searched, in order. -/
def s5Tables (tables : List ℕ) : List ℕ :=
  (tables.filter fun hdr => hasSignature m hdr signSSDT) ++ (dsdtOf m (lastFadt m tables)).toList

def s5Of (hdr : ℕ) : Option (BitVec 8 × BitVec 8) := (findS5 (tableAt m hdr) (sdtLength m hdr)).value

/-- The sleep types for what was found: 5 and 5 stand for nothing, and for two zeros. -/
def sleepTypes (found : Option (BitVec 8 × BitVec 8)) : BitVec 8 × BitVec 8 :=
  found.elim (5, 5) fun types => if types.1 = 0 ∧ types.2 = 0 then (5, 5) else types

/-- The state with these sleep types. -/
def withS5 (s : AcpiState) (found : Option (BitVec 8 × BitVec 8)) : AcpiState :=
  { s with slpTypa := (sleepTypes found).1, slpTypb := (sleepTypes found).2, haveS5 := found.isSome }

/-- The state with the control registers of a FADT. -/
def withFadt (s : AcpiState) (fadt : Option ℕ) : AcpiState :=
  fadt.elim s fun hdr =>
    { s with pm1aCntBlk := (tableAt m hdr).load32 0x40, pm1bCntBlk := (tableAt m hdr).load32 0x44 }

end Tables

section Scan

variable {m : Memory} {s : AcpiState} {tables : List ℕ} {t : AcpiScan}

/-- A table counts only if none did before. -/
theorem tryTableS5_withS5 (hdr : ℕ) (found : Option (BitVec 8 × BitVec 8)) :
    tryTableS5 m hdr (withS5 s found) = withS5 s (found.or (s5Of m hdr)) := by
  rw [tryTableS5, s5Of]
  cases found with
  | some types => rfl
  | none =>
    rw [Option.none_or]
    rcases (findS5 (tableAt m hdr) (sdtLength m hdr)).value with _ | ⟨a, b⟩
    · rfl
    · change (if a = 0 ∧ b = 0 then withS5 s (some (5, 5))
        else { withS5 s none with slpTypa := a, slpTypb := b, haveS5 := true }) = _
      rw [withS5, withS5, withS5, sleepTypes, sleepTypes, sleepTypes, Option.elim_some, Option.elim_some]
      rcases em (a = 0 ∧ b = 0) with zeros | types
      · rw [if_pos zeros, if_pos zeros]
        rfl
      · rw [if_neg types, if_neg types]
        rfl

/-- After the entries of some tables. -/
structure Scanned (m : Memory) (s : AcpiState) (tables : List ℕ) (t : AcpiScan) : Prop where
  state : t.state = withS5 (withFadt m s (lastFadt m tables))
    ((tables.filter fun hdr => hasSignature m hdr signSSDT).findSome? (s5Of m))
  dsdtPhys : t.dsdtPhys = (lastFadt m tables).elim 0 (fadtDsdt m)

/-- Signatures with different first letters exclude each other. -/
theorem first_of_signature {hdr : ℕ} {letter : BitVec 8} {rest : List (BitVec 8)}
    (here : hasSignature m hdr (letter :: rest)) : tableAt m hdr 0 = letter := by
  rw [hasSignature, memcmp_] at here
  split at here
  · next other =>
    apply BitVec.eq_of_toNat_eq
    omega
  · next same => exact not_not.mp same

theorem not_ssdt_of_facp {hdr : ℕ} (facp : hasSignature m hdr signFACP) : ¬hasSignature m hdr signSSDT :=
  fun ssdt => absurd ((first_of_signature facp).symm.trans (first_of_signature ssdt)) (by decide)

/-- One more table. -/
theorem Scanned.table (scanned : Scanned m s tables t) (hdr : ℕ) (slots : List ℕ) :
    Scanned m s (tables ++ [hdr]) (acpiTable m hdr { t with slots }) := by
  rw [acpiTable]
  rcases em (hasSignature m hdr signFACP) with facp | notFacp
  · have last : lastFadt m (tables ++ [hdr]) = some hdr := by
      rw [lastFadt, List.filter_append, List.filter_singleton, decide_eq_true facp]
      exact List.getLast?_concat
    have none : ([hdr].filter fun hdr => hasSignature m hdr signSSDT) = [] := by
      rw [List.filter_singleton, decide_eq_false (not_ssdt_of_facp facp)]
      rfl
    rw [if_pos facp]
    refine ⟨?_, by rw [last]; rfl⟩
    rw [last, List.filter_append, none, List.append_nil, scanned.state]
    cases lastFadt m tables <;> rfl
  have last : lastFadt m (tables ++ [hdr]) = lastFadt m tables := by
    rw [lastFadt, List.filter_append, List.filter_singleton, decide_eq_false notFacp]
    exact congrArg List.getLast? (List.append_nil _)
  rw [if_neg notFacp]
  rcases em (hasSignature m hdr signSSDT) with ssdt | other
  · rw [if_pos ssdt]
    refine ⟨?_, last ▸ scanned.dsdtPhys⟩
    have searched : ([hdr].filter fun hdr => hasSignature m hdr signSSDT) = [hdr] := by
      rw [List.filter_singleton, decide_eq_true ssdt]
      rfl
    rw [last, List.filter_append, searched, List.findSome?_append, List.findSome?_singleton, ← tryTableS5_withS5,
      ← scanned.state]
  · rw [if_neg other]
    have skipped : ([hdr].filter fun hdr => hasSignature m hdr signSSDT) = [] := by
      rw [List.filter_singleton, decide_eq_false other]
      rfl
    refine ⟨?_, last ▸ scanned.dsdtPhys⟩
    rw [last, List.filter_append, skipped, List.append_nil]
    exact scanned.state

/-- The loop over the entries. -/
theorem scanned_foldl (fresh : s = withS5 s none) (size base n : ℕ) :
    Scanned m s ((List.range n).map fun i =>
        let slot := (base + i * size % 2 ^ 32) % 2 ^ 64
        if size = 8 then m.load64 slot else m.load32 slot)
      ((List.range n).foldl (fun t i => acpiEntry m size base i t) { state := s }) := by
  induction n with
  | zero => exact ⟨fresh, rfl⟩
  | succ n ih =>
    rw [List.range_succ, List.map_append, List.map_singleton, List.foldl_append, List.foldl_cons, List.foldl_nil]
    exact ih.table _ _

/-- Behind the entries. -/
theorem Scanned.finish (scanned : Scanned m s tables t) :
    (acpiFinish m t).state =
      withS5 (withFadt m s (lastFadt m tables)) ((s5Tables m tables).findSome? (s5Of m)) := by
  have defaults (s : AcpiState) (found : Option (BitVec 8 × BitVec 8)) :
      (if (withS5 s found).haveS5 then withS5 s found
        else { withS5 s found with slpTypa := 5, slpTypb := 5 }) = withS5 s found := by
    cases found <;> rfl
  rw [acpiFinish, s5Tables, List.findSome?_append, dsdtOf, scanned.dsdtPhys, scanned.state]
  dsimp only
  rcases lastFadt m tables with _ | hdr
  · have none : ¬((Option.none : Option ℕ).elim 0 (fadtDsdt m) ≠ 0 ∧
        hasSignature m ((Option.none : Option ℕ).elim 0 (fadtDsdt m)) signDSDT) := fun used => used.1 rfl
    rw [if_neg none, defaults, Option.map_none, Option.filter_none, Option.toList_none, List.findSome?_nil,
      Option.or_none]
  · rw [Option.map_some, Option.elim_some, Option.filter_some]
    rcases em (fadtDsdt m hdr ≠ 0 ∧ hasSignature m (fadtDsdt m hdr) signDSDT) with used | unused
    · rw [if_pos used, if_pos (decide_eq_true used), tryTableS5_withS5, defaults, Option.toList_some,
        List.findSome?_singleton]
    · rw [if_neg unused, if_neg fun yes => unused (of_decide_eq_true yes), defaults, Option.toList_none,
        List.findSome?_nil, Option.or_none]

end Scan

/-- When `find_rsdp` finds a root pointer and the table of tables has its signature: whatever the order of the
entries, the control registers are those of the last FADT, and the sleep types are those of the first SSDT with a
package, else of the last FADT's DSDT, where two zeros stand for 5 and 5, else 5. The name of the maker changes nothing
of this. -/
theorem acpi_init_chooses {m : Memory} {rsdp : ℕ} (found : findRsdp m = some rsdp)
    (accepted : SdtAccepted m (sdtPhys m rsdp)) :
    (acpiInit m {}).state =
      withS5 (withFadt m (detectQemu m (sdtPhys m rsdp) {}) (lastFadt m (sdtTables m rsdp)))
        ((s5Tables m (sdtTables m rsdp)).findSome? (s5Of m)) := by
  have init : acpiInit m {} =
      acpiFinish m (acpiEntries m (entrySize m rsdp) (sdtPhys m rsdp) (detectQemu m (sdtPhys m rsdp) {})) := by
    simp only [acpiInit, found]
    exact if_pos accepted
  have fresh : detectQemu m (sdtPhys m rsdp) {} = withS5 (detectQemu m (sdtPhys m rsdp) {}) none := by
    rw [detectQemu]
    split <;> rfl
  rw [init]
  exact (scanned_foldl fresh _ _ _).finish

/-- A package of two bytes under the name `_S5_`. -/
def samplePackage (a b : BitVec 8) : List (BitVec 8) := s5Name ++ [0x12, 0x06, 0x02, 0x0A, a, 0x0A, b]

/-- A table of the given length that goes on after its header. -/
def sampleTable (signature : List (BitVec 8)) (length : BitVec 8) (body : List (BitVec 8)) : List (BitVec 8) :=
  signature ++ [length, 0, 0, 0] ++ List.replicate 28 0 ++ body

/-- A FADT with a DSDT at 0x3000. -/
def sampleFadt (pm1a : List (BitVec 8)) : List (BitVec 8) :=
  sampleTable signFACP 0x74 ([0, 0, 0, 0, 0, 0x30, 0, 0] ++ List.replicate 20 0 ++ pm1a)

/-- A root pointer, and a table of tables with an SSDT, a FADT, a second SSDT of the given content, and a second
FADT. The package of their DSDT has 3 and 3. -/
def sampleAcpiTables (ssdt : List (BitVec 8)) : Memory := fun address =>
  let blocks : List (ℕ × List (BitVec 8)) :=
    [(0xE0000, [0x52, 0x53, 0x44, 0x20, 0x50, 0x54, 0x52, 0x20, 0xD1, 0, 0, 0, 0, 0, 0, 0, 0, 0x10, 0, 0]),
      (0x1000, sampleTable signRSDT 52 [0, 0x40, 0, 0, 0, 0x20, 0, 0, 0, 0x50, 0, 0, 0, 0x28, 0, 0]),
      (0x2000, sampleFadt [0x04, 0x06, 0, 0]), (0x2800, sampleFadt [0x04, 0xB0, 0, 0]),
      (0x3000, sampleTable signDSDT 48 (samplePackage 3 3)), (0x4000, sampleTable signSSDT 40 [0, 0, 0, 0]),
      (0x5000, sampleTable signSSDT 48 ssdt)]
  (blocks.findSome? fun block => if block.1 ≤ address then block.2[address - block.1]? else none).getD 0

/-- The registers are the second FADT's. The types are the second SSDT's, 5 if these are zeros, and the DSDT's if
there is no package in the SSDTs. -/
theorem acpi_init_chooses_sample :
    (acpiInit (sampleAcpiTables (samplePackage 7 6)) {}).state =
        { pm1aCntBlk := 0xB004, slpTypa := 7, slpTypb := 6, haveS5 := true } ∧
      (acpiInit (sampleAcpiTables (samplePackage 0 0)) {}).state =
        { pm1aCntBlk := 0xB004, slpTypa := 5, slpTypb := 5, haveS5 := true } ∧
      (acpiInit (sampleAcpiTables []) {}).state =
        { pm1aCntBlk := 0xB004, slpTypa := 3, slpTypb := 3, haveS5 := true } := by
  refine ⟨?_, ?_, ?_⟩
  · rw [acpi_init_chooses (findRsdp_first rfl (by decide +kernel)) (by decide +kernel)]
    decide +kernel
  · rw [acpi_init_chooses (findRsdp_first rfl (by decide +kernel)) (by decide +kernel)]
    decide +kernel
  · rw [acpi_init_chooses (findRsdp_first rfl (by decide +kernel)) (by decide +kernel)]
    decide +kernel

end RaryOS.Soundness
