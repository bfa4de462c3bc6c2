import RaryOS.Core.TableTree
import RaryOS.Model.Vmm

/-! # Page table entries, bit by bit

The address and the flags of an entry are disjoint sets of bits. An entry is a link to a further table
when it is present and maps no large page; `walk` is then the lookup of the path of an address, the
four indices of 9 bits each.
-/

namespace RaryOS.Model

open RaryOS.Core

theorem pteAddrMask_testBit (i : ℕ) : pteAddrMask.testBit i = (decide (12 ≤ i) && decide (i < 52)) := by
  have mask : pteAddrMask = (2 ^ 40 - 1) * 2 ^ 12 := by decide
  rw [mask, Nat.testBit_mul_two_pow, Nat.testBit_two_pow_sub_one]
  by_cases low : 12 ≤ i
  · simp only [low, decide_true, Bool.true_and]
    exact decide_eq_decide.mpr (by omega)
  · simp only [low, decide_false, Bool.false_and]

theorem not_pteAddrMask_testBit (i : ℕ) :
    (2 ^ 64 - 1 - pteAddrMask).testBit i = (decide (i < 64) && !(decide (12 ≤ i) && decide (i < 52))) := by
  rw [show 2 ^ 64 - 1 - pteAddrMask = 2 ^ 64 - (pteAddrMask + 1) by omega,
    Nat.testBit_two_pow_sub_succ (by decide), pteAddrMask_testBit]

theorem not_pagePs_testBit (i : ℕ) :
    (2 ^ 64 - 1 - pagePs).testBit i = (decide (i < 64) && !decide (7 = i)) := by
  rw [show 2 ^ 64 - 1 - pagePs = 2 ^ 64 - (pagePs + 1) by omega,
    Nat.testBit_two_pow_sub_succ (by decide), pagePs, Nat.testBit_two_pow]

theorem entryPresent_eq (entry : ℕ) : entryPresent entry = entry.testBit 0 := by
  rw [entryPresent, pagePresent, Nat.and_two_pow]
  cases entry.testBit 0 <;> rfl

theorem entryPresent_iff (entry : ℕ) : entryPresent entry = true ↔ entry &&& pagePresent ≠ 0 := bne_iff_ne

theorem entryPs_iff (entry : ℕ) : entryPs entry = true ↔ entry &&& pagePs ≠ 0 := bne_iff_ne

theorem entryPs_eq (entry : ℕ) : entryPs entry = entry.testBit 7 := by
  rw [entryPs, pagePs, Nat.and_two_pow]
  cases entry.testBit 7 <;> rfl

/-- The address field as a number. -/
theorem and_pteAddrMask (x : ℕ) : x &&& pteAddrMask = x / 4096 % 2 ^ 40 * 4096 := by
  apply Nat.eq_of_testBit_eq
  intro i
  rw [Nat.testBit_and, pteAddrMask_testBit, show (4096 : ℕ) = 2 ^ 12 from rfl, Nat.testBit_mul_two_pow,
    Nat.testBit_mod_two_pow, Nat.testBit_div_two_pow]
  by_cases low : 12 ≤ i
  · rw [show i - 12 + 12 = i by omega, decide_eq_true low, Bool.true_and, Bool.true_and, Bool.and_comm]
    congr 1
    exact decide_eq_decide.mpr (by omega)
  · rw [decide_eq_false low, Bool.false_and, Bool.false_and, Bool.and_false]

/-- The address of a page below 2^52 passes the mask. -/
theorem page_and_pteAddrMask {page : ℕ} (aligned : page % 4096 = 0) (bound : page < 2 ^ 52) :
    page &&& pteAddrMask = page := by
  rw [and_pteAddrMask]
  omega

/-- Flags that neither set the page-size bit nor touch the address field. -/
structure PlainFlags (flags : ℕ) : Prop where
  bound : flags < 2 ^ 64
  ps : flags &&& pagePs = 0
  addr : flags &&& pteAddrMask = 0

namespace PlainFlags

variable {flags : ℕ} (plain : PlainFlags flags)
include plain

theorem testBit_ps : flags.testBit 7 = false := by
  have zero := plain.ps
  rw [pagePs, Nat.and_two_pow] at zero
  cases bit : flags.testBit 7
  · rfl
  · rw [bit] at zero
    cases zero

theorem testBit_addr {i : ℕ} (low : 12 ≤ i) (high : i < 52) : flags.testBit i = false := by
  have bit := congrArg (Nat.testBit · i) plain.addr
  simpa only [Nat.testBit_and, pteAddrMask_testBit, low, high, decide_true, Bool.and_true,
    Nat.zero_testBit] using bit

theorem testBit_high {i : ℕ} (high : 64 ≤ i) : flags.testBit i = false :=
  Nat.testBit_lt_two_pow (Nat.lt_of_lt_of_le plain.bound (Nat.pow_le_pow_right (by decide) high))

end PlainFlags

/-- An entry put together from an address, some of the bits `PRESENT` and `PS`, and plain flags. -/
theorem newEntry_testBit {phys bits flags : ℕ} (plain : PlainFlags flags) (i : ℕ) :
    ((phys &&& pteAddrMask) ||| bits ||| (flags &&& (2 ^ 64 - 1 - pagePs))).testBit i =
      ((phys.testBit i && (decide (12 ≤ i) && decide (i < 52))) || bits.testBit i || flags.testBit i) := by
  rw [Nat.testBit_or, Nat.testBit_or, Nat.testBit_and, pteAddrMask_testBit, Nat.testBit_and,
    not_pagePs_testBit]
  congr 1
  by_cases high : i < 64
  · by_cases ps : 7 = i
    · subst ps
      rw [plain.testBit_ps, Bool.false_and]
    · simp only [high, ps, decide_true, decide_false, Bool.not_false, Bool.and_true]
  · rw [plain.testBit_high (by omega), Bool.false_and]

/-- The fields of such an entry. -/
structure EntryFields (entry phys bits flags : ℕ) : Prop where
  present : entryPresent entry = true
  ps : entryPs entry = bits.testBit 7
  addr : entry &&& pteAddrMask = phys &&& pteAddrMask
  flags : entry &&& (2 ^ 64 - 1 - pteAddrMask) = flags ||| bits

theorem newEntry_fields {phys bits flags : ℕ} (plain : PlainFlags flags) (small : bits < 2 ^ 12)
    (present : bits.testBit 0 = true) :
    EntryFields ((phys &&& pteAddrMask) ||| bits ||| (flags &&& (2 ^ 64 - 1 - pagePs))) phys bits flags := by
  have high {i : ℕ} (low : 12 ≤ i) : bits.testBit i = false :=
    Nat.testBit_lt_two_pow (Nat.lt_of_lt_of_le small (Nat.pow_le_pow_right (by decide) low))
  refine ⟨?_, ?_, ?_, ?_⟩
  · rw [entryPresent_eq, newEntry_testBit plain, present, Bool.or_true, Bool.true_or]
  · rw [entryPs_eq, newEntry_testBit plain, plain.testBit_ps, Bool.or_false]
    simp
  · apply Nat.eq_of_testBit_eq
    intro i
    rw [Nat.testBit_and, Nat.testBit_and, newEntry_testBit plain, pteAddrMask_testBit]
    by_cases low : 12 ≤ i
    · by_cases top : i < 52
      · simp only [high low, plain.testBit_addr low top, low, top, decide_true, Bool.and_true, Bool.or_false]
      · simp only [top, decide_false, Bool.and_false]
    · simp only [low, decide_false, Bool.false_and, Bool.and_false]
  · apply Nat.eq_of_testBit_eq
    intro i
    rw [Nat.testBit_and, newEntry_testBit plain, Nat.testBit_or, not_pteAddrMask_testBit]
    by_cases low : 12 ≤ i
    · by_cases top : i < 52
      · simp only [high low, plain.testBit_addr low top, low, top, decide_true, Bool.and_true, Bool.or_false,
          Bool.not_true, Bool.and_false]
      · by_cases word : i < 64
        · simp only [high low, top, word, decide_true, decide_false, Bool.and_false, Bool.false_or,
            Bool.or_false, Bool.not_false, Bool.and_true]
        · simp only [high low, plain.testBit_high (show 64 ≤ i by omega), word, decide_false, Bool.false_and,
            Bool.and_false, Bool.or_false]
    · have word : i < 64 := by omega
      simp only [low, word, decide_true, decide_false, Bool.false_and, Bool.and_false, Bool.false_or,
        Bool.not_false, Bool.and_true]
      exact Bool.or_comm _ _

/-- The entry that links a new table. -/
theorem tableLink_fields {table : ℕ} (aligned : table % 4096 = 0) (bound : table < 2 ^ 52) :
    let entry := (table &&& pteAddrMask) ||| pagePresent ||| pageWritable ||| pageUser
    entry < 2 ^ 64 ∧ entryPresent entry = true ∧ entryPs entry = false ∧ entry &&& pteAddrMask = table := by
  intro entry
  have value : entry = (table &&& pteAddrMask) ||| 7 ||| (0 &&& (2 ^ 64 - 1 - pagePs)) := by
    simp only [entry, Nat.zero_and, Nat.or_zero, Nat.or_assoc]
    rfl
  have fields := @newEntry_fields table 7 0 ⟨by decide, by decide, by decide⟩
    (by decide) (by decide)
  rw [← value] at fields
  have seven : Nat.testBit 7 7 = false := by decide
  refine ⟨?_, fields.present, fields.ps.trans seven, fields.addr.trans (page_and_pteAddrMask aligned bound)⟩
  rw [value, page_and_pteAddrMask aligned bound, Nat.zero_and, Nat.or_zero]
  exact Nat.or_lt_two_pow (Nat.lt_trans bound (by decide)) (by decide)

/-! ## The walk as a lookup -/

/-- The entries of the tables in memory. -/
def tableEntries (m : Memory) (table : ℕ) (i : Fin 512) : ℕ := tableEntry m table i

/-- The table an entry links to. -/
def entryChild (entry : ℕ) : Option ℕ :=
  if entryPresent entry && !entryPs entry then some (entry &&& pteAddrMask) else none

/-- A table has 512 entries. -/
instance neZero_entries : NeZero 512 := ⟨by decide⟩

/-- The four indices of an address. -/
def pathOf (virt : ℕ) : List (Fin 512) :=
  [Fin.ofNat 512 (virt / 2 ^ 39), Fin.ofNat 512 (virt / 2 ^ 30), Fin.ofNat 512 (virt / 2 ^ 21),
    Fin.ofNat 512 (virt / 2 ^ 12)]

/-- What the entry at which a walk ends means, with the number of levels below it. -/
def resolve (virt : ℕ) : Option (ℕ × ℕ) → Except PageFault Leaf
  | none => .error .notPresent
  | some (entry, below) =>
    if !entryPresent entry then .error .notPresent
    else if below = 3 then .error .reservedBit
    else .ok (entryLeaf entry (12 + 9 * below) virt)

theorem resolve_absent {entry : ℕ} (virt below : ℕ) (absent : entryPresent entry = false) :
    resolve virt (some (entry, below)) = .error .notPresent := by
  simp only [resolve, absent, Bool.not_false, if_true]

theorem pml4Index_eq (virt : ℕ) : (Fin.ofNat 512 (virt / 2 ^ 39) : Fin 512).val = pml4Index virt := rfl

theorem pdptIndex_eq (virt : ℕ) : (Fin.ofNat 512 (virt / 2 ^ 30) : Fin 512).val = pdptIndex virt := rfl

theorem pdIndex_eq (virt : ℕ) : (Fin.ofNat 512 (virt / 2 ^ 21) : Fin 512).val = pdIndex virt := rfl

/-- One level of the walk. -/
theorem resolve_lookup (m : Memory) (table virt : ℕ) (i j : Fin 512) (path : List (Fin 512)) :
    resolve virt (lookup entryChild (tableEntries m) table (i :: j :: path)) =
      if !entryPresent (tableEntry m table i) then .error .notPresent
      else if entryPs (tableEntry m table i) then
        if path.length + 1 = 3 then .error .reservedBit
        else .ok (entryLeaf (tableEntry m table i) (12 + 9 * (path.length + 1)) virt)
      else resolve virt
        (lookup entryChild (tableEntries m) (tableEntry m table i &&& pteAddrMask) (j :: path)) := by
  rw [lookup, entryChild, tableEntries]
  cases present : entryPresent (tableEntry m table i)
  · simp only [Bool.false_and, Bool.false_eq_true, if_false, resolve, present, Bool.not_false, if_true]
  · cases ps : entryPs (tableEntry m table i)
    · rfl
    · simp only [Bool.not_true, Bool.and_false, Bool.false_eq_true, if_false, resolve, present, if_true]

theorem walk_eq_resolve (m : Memory) (pml4 virt : ℕ) :
    walk m pml4 virt = resolve virt (lookup entryChild (tableEntries m) pml4 (pathOf virt)) := by
  rw [pathOf, resolve_lookup, resolve_lookup, resolve_lookup]
  rfl

/-- The entry that maps an address, with the number of levels below it. -/
def leafEntry (m : Memory) (pml4 virt : ℕ) : Option (ℕ × ℕ) :=
  (lookup entryChild (tableEntries m) pml4 (pathOf virt)).filter fun found => entryPresent found.1

theorem walk_eq_leaf (m : Memory) (pml4 virt : ℕ) :
    walk m pml4 virt = resolve virt (leafEntry m pml4 virt) := by
  rw [walk_eq_resolve, leafEntry]
  cases lookup entryChild (tableEntries m) pml4 (pathOf virt) with
  | none => rfl
  | some found =>
    cases present : entryPresent found.1 with
    | false =>
      rw [Option.filter_some, present, resolve_absent virt found.2 present]
      rfl
    | true =>
      rw [Option.filter_some, present]
      rfl

theorem walk_of_leaf {m m' : Memory} {pml4 virt : ℕ}
    (same : leafEntry m' pml4 virt = leafEntry m pml4 virt) : walk m' pml4 virt = walk m pml4 virt := by
  rw [walk_eq_leaf, walk_eq_leaf, same]

theorem leafEntry_of_lookup {m m' : Memory} {pml4 virt : ℕ}
    (same : lookup entryChild (tableEntries m') pml4 (pathOf virt) =
      lookup entryChild (tableEntries m) pml4 (pathOf virt)) :
    leafEntry m' pml4 virt = leafEntry m pml4 virt := by
  rw [leafEntry, leafEntry, same]

theorem leafEntry_of_absent {m : Memory} {pml4 virt entry below : ℕ}
    (found : lookup entryChild (tableEntries m) pml4 (pathOf virt) = some (entry, below))
    (absent : entryPresent entry = false) : leafEntry m pml4 virt = none := by
  rw [leafEntry, found, Option.filter_some, absent]
  rfl

theorem leafEntry_of_present {m : Memory} {pml4 virt entry below : ℕ}
    (found : lookup entryChild (tableEntries m) pml4 (pathOf virt) = some (entry, below))
    (present : entryPresent entry = true) : leafEntry m pml4 virt = some (entry, below) := by
  rw [leafEntry, found, Option.filter_some, present]
  rfl

/-- The path ends at an entry that is not present: a table on it is missing. -/
def tableMissing (m : Memory) (pml4 : ℕ) (path : List (Fin 512)) : Bool :=
  (lookup entryChild (tableEntries m) pml4 path).any fun found => !entryPresent found.1

theorem tableMissing_of_lookup {m m' : Memory} {pml4 : ℕ} {path : List (Fin 512)}
    (same : lookup entryChild (tableEntries m') pml4 path = lookup entryChild (tableEntries m) pml4 path) :
    tableMissing m' pml4 path = tableMissing m pml4 path := by
  rw [tableMissing, tableMissing, same]

theorem tableMissing_of_found {m : Memory} {pml4 entry below : ℕ} {path : List (Fin 512)}
    (found : lookup entryChild (tableEntries m) pml4 path = some (entry, below)) :
    tableMissing m pml4 path = !entryPresent entry := by
  rw [tableMissing, found, Option.any_some]

theorem ofNat_eq_iff (x y : ℕ) : (Fin.ofNat 512 x : Fin 512) = Fin.ofNat 512 y ↔ x % 512 = y % 512 :=
  Fin.ext_iff

/-- Two addresses agree on their first indices exactly when they lie in one page of that size. -/
theorem take_prefix_iff {v w : ℕ} (small : v < 2 ^ 48) (small' : w < 2 ^ 48) :
    ((pathOf v).take 2 <+: pathOf w ↔ v / 2 ^ 30 = w / 2 ^ 30) ∧
      ((pathOf v).take 3 <+: pathOf w ↔ v / 2 ^ 21 = w / 2 ^ 21) ∧
        (pathOf v <+: pathOf w ↔ v / 2 ^ 12 = w / 2 ^ 12) := by
  simp only [pathOf, List.take_succ_cons, List.take_zero, List.cons_prefix_cons, List.nil_prefix, and_true,
    ofNat_eq_iff]
  omega

end RaryOS.Model
