import RaryOS.Model.BootTables
import RaryOS.Proofs.VmmTree

/-! # The tree that the boot code builds

`boot_main` leaves six tables: `pml4` links to `pdpt`, whose first four entries link to the page
directories, and these map large pages. The three symbols are aligned and apart, as the linker places
them.
-/

namespace RaryOS.Model

open RaryOS.Core

/-- Where the linker puts the tables: whole pages below 4 GiB, apart from each other. -/
structure BootSymbols (pml4 pdpt pd : ℕ) : Prop where
  pagePml4 : IsPage pml4 ∧ pml4 < 2 ^ 32
  pagePdpt : IsPage pdpt ∧ pdpt < 2 ^ 32
  pagePd : IsPage pd ∧ pd + 0x4000 ≤ 2 ^ 32
  apart : pml4 ≠ pdpt ∧ (pml4 < pd ∨ pd + 0x4000 ≤ pml4) ∧ (pdpt < pd ∨ pd + 0x4000 ≤ pdpt)

/-- The pages of the tables. -/
def bootPages (pml4 pdpt pd : ℕ) : Set ℕ := {t | t = pml4 ∨ t = pdpt ∨ ∃ k < 4, t = pd + 0x1000 * k}

/-! ## The loops -/

theorem bootWrite_apply (m : Memory) {base ecx low query : ℕ}
    (outside : query < base + 8 * ecx ∨ base + 8 * ecx + 8 ≤ query) :
    bootWrite m base ecx low query = m query := by
  rw [bootWrite, Memory.store32, Memory.store_apply_of_outside _ _ (by omega), Memory.store32,
    Memory.store_apply_of_outside _ _ (by omega)]

theorem tableEntry_bootWrite_same (m : Memory) (base ecx : ℕ) {low : ℕ} (small : low < 2 ^ 32) :
    tableEntry (bootWrite m base ecx low) base ecx = low := by
  rw [tableEntry, Memory.load64_eq_load32, bootWrite, Memory.load32_store32_same]
  have first : ((m.store32 (base + 8 * ecx) low).store32 (base + 8 * ecx + 4) 0).load32 (base + 8 * ecx) =
      low % 2 ^ 32 := by
    rw [← Memory.load32_store32_same m (base + 8 * ecx) low]
    exact Memory.load_store_of_disjoint _ _ (by omega)
  rw [first]
  omega

theorem tableEntry_congr {m m' : Memory} {table idx : ℕ} (agree : Memory.Agree m m' (table + 8 * idx) 8) :
    tableEntry m' table idx = tableEntry m table idx :=
  Memory.load_congr agree

theorem tableEntry_bootWrite_other (m : Memory) (base : ℕ) {ecx idx low : ℕ} (other : idx ≠ ecx) :
    tableEntry (bootWrite m base ecx low) base idx = tableEntry m base idx :=
  tableEntry_congr fun query _ _ => bootWrite_apply m (by omega)

/-- A loop that writes the entries of a table in order. -/
theorem bootWrites_spec (written : ℕ → Memory) (base : ℕ) {low : ℕ → ℕ} (small : ∀ idx, low idx < 2 ^ 32)
    (step : ∀ ecx, written (ecx + 1) = bootWrite (written ecx) base ecx (low ecx)) (count : ℕ) :
    (∀ idx < count, tableEntry (written count) base idx = low idx) ∧
      ∀ query, query < base ∨ base + 8 * count ≤ query → written count query = written 0 query := by
  induction count with
  | zero => exact ⟨fun idx bound => absurd bound (Nat.not_lt_zero idx), fun _ _ => rfl⟩
  | succ ecx ih =>
    rw [step]
    constructor
    · intro idx bound
      rcases Nat.lt_succ_iff_lt_or_eq.mp bound with before | rfl
      · rw [tableEntry_bootWrite_other _ _ before.ne]
        exact ih.1 idx before
      · exact tableEntry_bootWrite_same _ _ _ (small idx)
    · intro query outside
      rw [bootWrite_apply _ (by omega)]
      exact ih.2 query (by omega)

theorem bootClear_spec (table count : ℕ) (m : Memory) :
    (∀ idx < count, tableEntry (bootClear table count m) table idx = 0) ∧
      ∀ query, query < table ∨ table + 8 * count ≤ query → bootClear table count m query = m query :=
  bootWrites_spec (bootClear table · m) table (fun _ => by decide) (fun _ => rfl) count

theorem bootPdEntry_lt {edx : ℕ} (small : edx < 2 ^ 32) : bootPdEntry edx < 2 ^ 32 := by
  rw [bootPdEntry]
  split_ifs <;> exact Nat.or_lt_two_pow small (by decide)

theorem bootFillPd_spec (pd count : ℕ) (m : Memory) :
    (∀ idx < count, tableEntry (bootFillPd pd count m) pd idx =
        bootPdEntry (idx * 0x200000 % 2 ^ 32)) ∧
      ∀ query, query < pd ∨ pd + 8 * count ≤ query → bootFillPd pd count m query = m query :=
  bootWrites_spec (bootFillPd pd · m) pd (fun _ => bootPdEntry_lt (Nat.mod_lt _ (by decide))) (fun _ => rfl) count

/-! ## The links -/

/-- Writing the low word of a cleared entry. -/
theorem tableEntry_store32_same {m : Memory} {table idx address value : ℕ}
    (place : address = table + 8 * idx) (clear : tableEntry m table idx = 0) (small : value < 2 ^ 32) :
    tableEntry (m.store32 address value) table idx = value := by
  subst place
  rw [tableEntry, Memory.load64_eq_load32] at clear ⊢
  have high : (m.store32 (table + 8 * idx) value).load32 (table + 8 * idx + 4) =
      m.load32 (table + 8 * idx + 4) := Memory.load_store_of_disjoint _ _ (by omega)
  rw [Memory.load32_store32_same, high]
  omega

theorem tableEntry_store32_other (m : Memory) {table idx address : ℕ} (value : ℕ)
    (apart : address + 4 ≤ table + 8 * idx ∨ table + 8 * idx + 8 ≤ address) :
    tableEntry (m.store32 address value) table idx = tableEntry m table idx :=
  Memory.load_store_of_disjoint _ _ (by omega)

/-- `or $0x07` on the address of a page. -/
theorem page_or_seven {page : ℕ} (aligned : page % 4096 = 0) : page ||| 0x07 = page + 7 := by
  have split : page = 2 ^ 3 * (page / 8) := by omega
  rw [split, ← Nat.two_pow_add_eq_or_of_lt (by decide)]

/-- `and $~0x04` takes the user bit away. -/
theorem and_not_four {k : ℕ} (small : 8 * k + 7 < 2 ^ 32) : 8 * k + 7 &&& (2 ^ 32 - 1 - 0x04) = 8 * k + 3 := by
  have low : (8 * k + 7 &&& (2 ^ 32 - 1 - 0x04)) % 2 ^ 3 = 3 := by
    rw [Nat.and_mod_two_pow, show (8 * k + 7) % 2 ^ 3 = 7 by omega]
    rfl
  have high : (8 * k + 7 &&& (2 ^ 32 - 1 - 0x04)) / 2 ^ 3 = k := by
    rw [Nat.and_div_two_pow, show (8 * k + 7) / 2 ^ 3 = k by omega,
      show (2 ^ 32 - 1 - 0x04) / 2 ^ 3 = 2 ^ 29 - 1 by decide, Nat.and_two_pow_sub_one_eq_mod]
    omega
  omega

/-- What the tables contain. -/
structure BootEntries (m : Memory) (pml4 pdpt pd : ℕ) : Prop where
  inPml4 : ∀ idx < 512, tableEntry m pml4 idx = if idx = 0 then pdpt + 7 else 0
  inPdpt : ∀ idx < 512, tableEntry m pdpt idx =
    if idx = 0 then pd + 7 else if idx < 4 then pd + 0x1000 * idx + 3 else 0
  inPd : ∀ idx < 2048, tableEntry m pd idx = bootPdEntry (idx * 0x200000 % 2 ^ 32)

theorem bootMainTables_entries (m : Memory) {pml4 pdpt pd : ℕ} (symbols : BootSymbols pml4 pdpt pd) :
    BootEntries (bootMainTables m pml4 pdpt pd) pml4 pdpt pd := by
  obtain ⟨⟨pagePml4, smallPml4⟩, ⟨pagePdpt, smallPdpt⟩, ⟨pagePd, smallPd⟩, apart⟩ := symbols
  have alignedPml4 := pagePml4.aligned
  have alignedPdpt := pagePdpt.aligned
  have alignedPd := pagePd.aligned
  have second : (pd + 7 + 0x1000) % 2 ^ 32 &&& (2 ^ 32 - 1 - 0x04) = pd + 0x1000 + 3 := by
    obtain ⟨k, place⟩ : ∃ k, (pd + 7 + 0x1000) % 2 ^ 32 = 8 * k + 7 := ⟨(pd + 0x1000) / 8, by omega⟩
    rw [place, and_not_four (by omega)]
    omega
  have third : (pd + 0x1000 + 3 + 0x1000) % 2 ^ 32 = pd + 0x2000 + 3 := by omega
  have fourth : (pd + 0x2000 + 3 + 0x1000) % 2 ^ 32 = pd + 0x3000 + 3 := by omega
  have clear := bootClear_spec pml4 512 m
  have clear' := bootClear_spec pdpt 512 (bootClear pml4 512 m)
  have fill := bootFillPd_spec pd 2048 (bootClear pdpt 512 (bootClear pml4 512 m))
  simp only [bootMainTables, page_or_seven alignedPd, page_or_seven alignedPdpt, second, third, fourth]
  generalize bootFillPd pd 2048 (bootClear pdpt 512 (bootClear pml4 512 m)) = filled at fill ⊢
  have emptyPml4 : ∀ idx < 512, tableEntry filled pml4 idx = 0 := by
    intro idx bound
    rw [tableEntry_congr fun query _ _ => (fill.2 query (by omega)).trans (clear'.2 query (by omega))]
    exact clear.1 idx bound
  have emptyPdpt : ∀ idx < 512, tableEntry filled pdpt idx = 0 := by
    intro idx bound
    rw [tableEntry_congr fun query _ _ => fill.2 query (by omega)]
    exact clear'.1 idx bound
  refine ⟨fun idx bound => ?_, fun idx bound => ?_, fun idx bound => ?_⟩
  · have before (idx : ℕ) (bound : idx < 512) : tableEntry ((((filled.store32 pdpt (pd + 7)).store32
        (pdpt + 8) (pd + 0x1000 + 3)).store32 (pdpt + 16) (pd + 0x2000 + 3)).store32 (pdpt + 24)
          (pd + 0x3000 + 3)) pml4 idx = 0 := by
      rw [tableEntry_store32_other _ _ (by omega), tableEntry_store32_other _ _ (by omega),
        tableEntry_store32_other _ _ (by omega), tableEntry_store32_other _ _ (by omega)]
      exact emptyPml4 idx bound
    by_cases first : idx = 0
    · rw [if_pos first, first]
      exact tableEntry_store32_same (by omega) (before 0 (by decide)) (by omega)
    · rw [if_neg first, tableEntry_store32_other _ _ (by omega)]
      exact before idx bound
  · rw [tableEntry_store32_other _ _ (by omega)]
    obtain rfl | rfl | rfl | rfl | beyond : idx = 0 ∨ idx = 1 ∨ idx = 2 ∨ idx = 3 ∨ 4 ≤ idx := by omega
    · rw [tableEntry_store32_other _ _ (by omega), tableEntry_store32_other _ _ (by omega),
        tableEntry_store32_other _ _ (by omega)]
      exact tableEntry_store32_same (by omega) (emptyPdpt 0 bound) (by omega)
    · rw [tableEntry_store32_other _ _ (by omega), tableEntry_store32_other _ _ (by omega)]
      refine tableEntry_store32_same (by omega) ?_ (by omega)
      rw [tableEntry_store32_other _ _ (by omega)]
      exact emptyPdpt 1 bound
    · rw [tableEntry_store32_other _ _ (by omega)]
      refine tableEntry_store32_same (by omega) ?_ (by omega)
      rw [tableEntry_store32_other _ _ (by omega), tableEntry_store32_other _ _ (by omega)]
      exact emptyPdpt 2 bound
    · refine tableEntry_store32_same (by omega) ?_ (by omega)
      rw [tableEntry_store32_other _ _ (by omega), tableEntry_store32_other _ _ (by omega),
        tableEntry_store32_other _ _ (by omega)]
      exact emptyPdpt 3 bound
    · rw [tableEntry_store32_other _ _ (by omega), tableEntry_store32_other _ _ (by omega),
        tableEntry_store32_other _ _ (by omega), tableEntry_store32_other _ _ (by omega),
        if_neg (by omega), if_neg (by omega)]
      exact emptyPdpt idx bound
  · rw [tableEntry_store32_other _ _ (by omega), tableEntry_store32_other _ _ (by omega),
      tableEntry_store32_other _ _ (by omega), tableEntry_store32_other _ _ (by omega),
      tableEntry_store32_other _ _ (by omega)]
    exact fill.1 idx bound

/-- The boot code writes to its tables only. -/
theorem bootMainTables_apply_of_outside (m : Memory) {pml4 pdpt pd query : ℕ}
    (outside : ∀ t ∈ bootPages pml4 pdpt pd, query < t ∨ t + 4096 ≤ query) :
    bootMainTables m pml4 pdpt pd query = m query := by
  have inPml4 := outside pml4 (Or.inl rfl)
  have inPdpt := outside pdpt (Or.inr (Or.inl rfl))
  have inPd (k : ℕ) (bound : k < 4) := outside (pd + 0x1000 * k) (Or.inr (Or.inr ⟨k, bound, rfl⟩))
  have first := inPd 0 (by decide)
  have second := inPd 1 (by decide)
  have third := inPd 2 (by decide)
  have fourth := inPd 3 (by decide)
  simp only [bootMainTables, Memory.store32]
  iterate 5 rw [Memory.store_apply_of_outside _ _ (by omega)]
  rw [(bootFillPd_spec pd 2048 _).2 query (by omega), (bootClear_spec pdpt 512 _).2 query (by omega),
    (bootClear_spec pml4 512 m).2 query (by omega)]

/-! ## The tree -/

theorem entryPresent_of_odd {entry : ℕ} (odd : entry % 2 = 1) : entryPresent entry = true := by
  rw [entryPresent_eq, Nat.testBit_zero, odd]
  rfl

/-- The links of the boot tables: a page address with the low bits `7` or `3`. -/
theorem entryChild_link {page low : ℕ} (isPage : IsPage page) (bits : low = 7 ∨ low = 3) :
    entryChild (page + low) = some page := by
  have aligned := isPage.aligned
  have bound := isPage.bound
  refine entryChild_eq_some.mpr ⟨entryPresent_of_odd (by omega), ?_, ?_⟩
  · rw [entryPs_eq, Nat.testBit_eq_decide_div_mod_eq]
    exact decide_eq_false (by omega)
  · rw [and_pteAddrMask]
    omega

theorem entryChild_bootPdEntry (edx : ℕ) : entryChild (bootPdEntry edx) = none := by
  apply entryChild_of_ps
  rw [entryPs_eq, bootPdEntry]
  have bits : Nat.testBit 0x93 7 = true ∧ Nat.testBit 0x83 7 = true ∧ Nat.testBit 0x87 7 = true := by decide
  split_ifs <;> simp only [Nat.testBit_or, bits, Bool.or_true]

theorem bootPdEntry_present (edx : ℕ) : entryPresent (bootPdEntry edx) = true := by
  have bits : Nat.testBit 0x93 0 = true ∧ Nat.testBit 0x83 0 = true ∧ Nat.testBit 0x87 0 = true := by decide
  rw [entryPresent_eq, bootPdEntry]
  split_ifs <;> simp only [Nat.testBit_or, bits, Bool.or_true]

section Tree

variable {m : Memory} {pml4 pdpt pd : ℕ} (symbols : BootSymbols pml4 pdpt pd)
  (contents : BootEntries m pml4 pdpt pd)
include symbols

theorem isPage_pd {k : ℕ} (bound : k < 4) : IsPage (pd + 0x1000 * k) := by
  obtain ⟨page, small⟩ := symbols.pagePd
  have nonzero := page.nonzero
  have aligned := page.aligned
  exact ⟨by omega, by omega, by omega⟩

include contents

/-- The root links the `pdpt` and nothing else. -/
theorem boot_inPml4 (i : Fin 512) :
    entryChild (tableEntries m pml4 i) = if i = 0 then some pdpt else none := by
  have entry : tableEntries m pml4 i = if i.val = 0 then pdpt + 7 else 0 := contents.inPml4 i i.isLt
  by_cases first : i = 0
  · have zero : i.val = 0 := congrArg Fin.val first
    rw [entry, if_pos zero, if_pos first, entryChild_link symbols.pagePdpt.1 (Or.inl rfl)]
  · have other : ¬i.val = 0 := fun zero => first (Fin.ext zero)
    rw [entry, if_neg other, if_neg first, entryChild_zero]

/-- The `pdpt` links the four page directories. -/
theorem boot_inPdpt (k : Fin 512) :
    entryChild (tableEntries m pdpt k) = if k.val < 4 then some (pd + 0x1000 * k) else none := by
  have entry : tableEntries m pdpt k =
      if k.val = 0 then pd + 7 else if k.val < 4 then pd + 0x1000 * k + 3 else 0 :=
    contents.inPdpt k k.isLt
  by_cases linked : k.val < 4
  · rw [entry, if_pos linked, if_pos linked]
    by_cases zero : k.val = 0
    · rw [if_pos zero, zero, Nat.mul_zero, Nat.add_zero]
      exact entryChild_link symbols.pagePd.1 (Or.inl rfl)
    · rw [if_neg zero]
      exact entryChild_link (isPage_pd symbols linked) (Or.inr rfl)
  · have zero : ¬k.val = 0 := by omega
    rw [entry, if_neg zero, if_neg linked, if_neg linked, entryChild_zero]

omit symbols in
/-- A page directory maps 2 MiB pages. -/
theorem boot_inPd {k : ℕ} (bound : k < 4) (j : Fin 512) : tableEntries m (pd + 0x1000 * k) j =
    bootPdEntry ((512 * k + j) * 0x200000) := by
  have small := j.isLt
  have place : tableEntries m (pd + 0x1000 * k) j = tableEntry m pd (512 * k + j) :=
    congrArg m.load64 (by omega)
  have address : (512 * k + j) * 0x200000 % 2 ^ 32 = (512 * k + j) * 0x200000 :=
    Nat.mod_eq_of_lt (by omega)
  rw [place, contents.inPd _ (by omega), address]

/-- The boot tables and the paths to them. -/
theorem boot_descend {path : List (Fin 512)} {t : ℕ}
    (reach : descend entryChild (tableEntries m) pml4 path = some t) :
    path = [] ∧ t = pml4 ∨ path = [0] ∧ t = pdpt ∨
      ∃ k : Fin 512, k.val < 4 ∧ path = [0, k] ∧ t = pd + 0x1000 * k := by
  cases path with
  | nil => exact Or.inl ⟨rfl, (Option.some.inj reach).symm⟩
  | cons i path =>
    rw [descend, boot_inPml4 symbols contents] at reach
    by_cases first : i = 0
    · rw [if_pos first, Option.bind_some] at reach
      cases path with
      | nil => exact Or.inr (Or.inl ⟨by rw [first], (Option.some.inj reach).symm⟩)
      | cons k path =>
        rw [descend, boot_inPdpt symbols contents] at reach
        by_cases linked : k.val < 4
        · rw [if_pos linked, Option.bind_some] at reach
          cases path with
          | nil => exact Or.inr (Or.inr ⟨k, linked, by rw [first], (Option.some.inj reach).symm⟩)
          | cons j path =>
            rw [descend, boot_inPd contents linked, entryChild_bootPdEntry] at reach
            cases reach
        · rw [if_neg linked] at reach
          cases reach
    · rw [if_neg first] at reach
      cases reach

theorem boot_tree : TableTree entryChild (tableEntries m) pml4 3 := by
  obtain ⟨other, apart, apart'⟩ := symbols.apart
  have pagePml4 := symbols.pagePml4.1.aligned
  have pagePdpt := symbols.pagePdpt.1.aligned
  have pagePd := symbols.pagePd.1.aligned
  intro p q t _ _ reachP reachQ
  rcases boot_descend symbols contents reachP with ⟨rfl, rfl⟩ | ⟨rfl, rfl⟩ | ⟨k, boundK, rfl, rfl⟩ <;>
    rcases boot_descend symbols contents reachQ with ⟨rfl, same⟩ | ⟨rfl, same⟩ | ⟨l, boundL, rfl, same⟩
  · rfl
  · exact absurd same other
  · omega
  · exact absurd same.symm other
  · rfl
  · omega
  · omega
  · omega
  · have equal : k = l := Fin.ext (by omega)
    rw [equal]

theorem boot_reached {t : ℕ} (reached : Reached entryChild (tableEntries m) pml4 3 t) :
    t ∈ bootPages pml4 pdpt pd := by
  obtain ⟨path, _, reach⟩ := reached
  rcases boot_descend symbols contents reach with ⟨_, rfl⟩ | ⟨_, rfl⟩ | ⟨k, bound, _, rfl⟩
  · exact Or.inl rfl
  · exact Or.inr (Or.inl rfl)
  · exact Or.inr (Or.inr ⟨k, bound, rfl⟩)

/-- The three entries that an address below 4 GiB is walked through. -/
theorem boot_low {virt : ℕ} (low : virt < 2 ^ 32) :
    entryChild (tableEntries m pml4 (Fin.ofNat 512 (virt / 2 ^ 39))) = some pdpt ∧
      entryChild (tableEntries m pdpt (Fin.ofNat 512 (virt / 2 ^ 30))) =
        some (pd + 0x1000 * (virt / 2 ^ 30)) ∧
      tableEntries m (pd + 0x1000 * (virt / 2 ^ 30)) (Fin.ofNat 512 (virt / 2 ^ 21)) =
        bootPdEntry (virt / 0x200000 * 0x200000) := by
  have index : (Fin.ofNat 512 (virt / 2 ^ 30) : Fin 512).val = virt / 2 ^ 30 := by
    rw [pdptIndex_eq, pdptIndex]
    omega
  refine ⟨?_, ?_, ?_⟩
  · rw [boot_inPml4 symbols contents]
    exact if_pos (Fin.ext (by rw [pml4Index_eq, pml4Index]; omega))
  · rw [boot_inPdpt symbols contents, index]
    exact if_pos (by omega)
  · rw [boot_inPd contents (by omega), pdIndex_eq, pdIndex]
    exact congrArg bootPdEntry (by omega)

/-- Addresses below 4 GiB are mapped by the entries of the page directories. -/
theorem boot_leafEntry {virt : ℕ} (low : virt < 2 ^ 32) :
    leafEntry m pml4 virt = some (bootPdEntry (virt / 0x200000 * 0x200000), 1) := by
  obtain ⟨inPml4, inPdpt, inPd⟩ := boot_low symbols contents low
  refine leafEntry_of_present ?_ (bootPdEntry_present _)
  rw [pathOf, lookup_of_some inPml4 (List.cons_ne_nil _ _), lookup_of_some inPdpt (List.cons_ne_nil _ _),
    lookup_of_none, inPd]
  · rfl
  · rw [inPd]
    exact entryChild_bootPdEntry _

/-- All of them are present, and the last one maps the address. -/
theorem boot_trail {virt : ℕ} (low : virt < 2 ^ 32) :
    (trail entryChild (tableEntries m) pml4 (pathOf virt)).length = 3 ∧
      ∀ e ∈ trail entryChild (tableEntries m) pml4 (pathOf virt), entryPresent e = true := by
  obtain ⟨inPml4, inPdpt, inPd⟩ := boot_low symbols contents low
  have last : trail entryChild (tableEntries m) (pd + 0x1000 * (virt / 2 ^ 30))
      [Fin.ofNat 512 (virt / 2 ^ 21), Fin.ofNat 512 (virt / 2 ^ 12)] =
        [bootPdEntry (virt / 0x200000 * 0x200000)] := by
    rw [trail, inPd, entryChild_bootPdEntry]
  simp only [pathOf, trail, inPml4, inPdpt] at last ⊢
  rw [last]
  refine ⟨rfl, fun e member => ?_⟩
  simp only [List.mem_cons, List.not_mem_nil, or_false] at member
  rcases member with first | second | page
  · rw [first]
    exact (entryChild_eq_some.mp inPml4).1
  · rw [second]
    exact (entryChild_eq_some.mp inPdpt).1
  · rw [page]
    exact bootPdEntry_present _

/-- Addresses from 4 GiB on are not mapped. -/
theorem boot_leafEntry_high {virt : ℕ} (high : 2 ^ 32 ≤ virt) (bound : virt < 2 ^ 48) :
    leafEntry m pml4 virt = none := by
  have first := boot_inPml4 symbols contents (Fin.ofNat 512 (virt / 2 ^ 39))
  have index : (Fin.ofNat 512 (virt / 2 ^ 39) : Fin 512).val = virt / 2 ^ 39 % 512 := rfl
  by_cases zero : (Fin.ofNat 512 (virt / 2 ^ 39) : Fin 512) = 0
  · rw [if_pos zero] at first
    have second := boot_inPdpt symbols contents (Fin.ofNat 512 (virt / 2 ^ 30))
    have index' : (Fin.ofNat 512 (virt / 2 ^ 30) : Fin 512).val = virt / 2 ^ 30 % 512 := rfl
    have value := congrArg Fin.val zero
    rw [index, Fin.val_zero] at value
    have beyond : ¬(Fin.ofNat 512 (virt / 2 ^ 30) : Fin 512).val < 4 := by omega
    have entry : tableEntries m pdpt (Fin.ofNat 512 (virt / 2 ^ 30)) = 0 := by
      rw [tableEntries, contents.inPdpt _ (Fin.isLt _), if_neg (by omega), if_neg beyond]
    rw [if_neg beyond] at second
    have found := lookup_of_some first (List.cons_ne_nil (Fin.ofNat 512 (virt / 2 ^ 30))
      [Fin.ofNat 512 (virt / 2 ^ 21), Fin.ofNat 512 (virt / 2 ^ 12)])
    rw [lookup_of_none _ second, entry] at found
    exact leafEntry_of_absent found (by decide)
  · rw [if_neg zero] at first
    have other : ¬(Fin.ofNat 512 (virt / 2 ^ 39) : Fin 512).val = 0 := fun value => zero (Fin.ext value)
    have entry : tableEntries m pml4 (Fin.ofNat 512 (virt / 2 ^ 39)) = 0 := by
      rw [tableEntries, contents.inPml4 _ (Fin.isLt _), if_neg other]
    have found := lookup_of_none [Fin.ofNat 512 (virt / 2 ^ 30), Fin.ofNat 512 (virt / 2 ^ 21),
      Fin.ofNat 512 (virt / 2 ^ 12)] first
    rw [entry] at found
    exact leafEntry_of_absent found (by decide)

end Tree

/-- The flags of the large page at `edx`. -/
def bootFlags (edx : ℕ) : ℕ :=
  if 0xC0000000 ≤ edx then 0x93 else if 0x40000000 ≤ edx then 0x83 else 0x87

/-- An address below 4 GiB is mapped to itself. -/
theorem boot_resolve {virt : ℕ} (low : virt < 2 ^ 32) :
    resolve virt (some (bootPdEntry (virt / 0x200000 * 0x200000), 1)) =
      .ok ⟨virt, bootFlags (virt / 0x200000 * 0x200000)⟩ := by
  have address : virt / 0x200000 * 0x200000 &&& pteAddrMask = virt / 0x200000 * 0x200000 := by
    rw [and_pteAddrMask]
    omega
  have fields {bits : ℕ} (small : bits < 2 ^ 12) (present : bits.testBit 0 = true) :
      EntryFields (virt / 0x200000 * 0x200000 ||| bits) (virt / 0x200000 * 0x200000) bits 0 := by
    have split := @newEntry_fields (virt / 0x200000 * 0x200000) bits 0 ⟨by decide, by decide, by decide⟩
      small present
    rwa [address, Nat.zero_and, Nat.or_zero] at split
  have base : virt / 0x200000 * 0x200000 / 2 ^ (12 + 9 * 1) * 2 ^ (12 + 9 * 1) + virt % 2 ^ (12 + 9 * 1) =
      virt := by omega
  have leaf {bits : ℕ} (small : bits < 2 ^ 12) (present : bits.testBit 0 = true) :
      resolve virt (some (virt / 0x200000 * 0x200000 ||| bits, 1)) = .ok ⟨virt, bits⟩ := by
    have entry := fields small present
    simp only [resolve, entry.present, Bool.not_true, Bool.false_eq_true, if_false,
      show ¬(1 : ℕ) = 3 by decide, entryLeaf, entry.addr, entry.flags, address, base, Nat.zero_or]
  rw [bootPdEntry, bootFlags]
  split_ifs
  · exact leaf (by decide) (by decide)
  · exact leaf (by decide) (by decide)
  · exact leaf (by decide) (by decide)

theorem isPage_of_mem {pml4 pdpt pd t : ℕ} (symbols : BootSymbols pml4 pdpt pd)
    (member : t ∈ bootPages pml4 pdpt pd) : IsPage t := by
  rcases member with rfl | rfl | ⟨k, bound, rfl⟩
  · exact symbols.pagePml4.1
  · exact symbols.pagePdpt.1
  · exact isPage_pd symbols bound

/-- The contents survive whatever leaves the pages of the tables alone. -/
theorem BootEntries.congr {m m' : Memory} {pml4 pdpt pd : ℕ} (contents : BootEntries m pml4 pdpt pd)
    (agree : ∀ t ∈ bootPages pml4 pdpt pd, Memory.Agree m m' t 4096) : BootEntries m' pml4 pdpt pd where
  inPml4 idx bound := by
    rw [← contents.inPml4 idx bound]
    exact tableEntry_congr fun query lower upper => agree pml4 (Or.inl rfl) query (by omega) (by omega)
  inPdpt idx bound := by
    rw [← contents.inPdpt idx bound]
    exact tableEntry_congr fun query lower upper =>
      agree pdpt (Or.inr (Or.inl rfl)) query (by omega) (by omega)
  inPd idx bound := by
    rw [← contents.inPd idx bound]
    exact tableEntry_congr fun query lower upper =>
      agree _ (Or.inr (Or.inr ⟨idx / 512, by omega, rfl⟩)) query (by omega) (by omega)

end RaryOS.Model
