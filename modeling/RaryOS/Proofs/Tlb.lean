import RaryOS.Model.Tlb
import RaryOS.Proofs.VmmTree

/-! # Cached translations

A cached translation is good as long as one entry maps all addresses of its page, at the level of its
size. A walk adds good translations only.
-/

namespace RaryOS.Model

open RaryOS.Core

/-- The four indices decide the page. -/
theorem take_pathOf {v w below : ℕ} (few : below < 3)
    (same : w / 2 ^ (12 + 9 * below) = v / 2 ^ (12 + 9 * below)) :
    (pathOf w).take (4 - below) = (pathOf v).take (4 - below) := by
  obtain rfl | rfl | rfl : below = 0 ∨ below = 1 ∨ below = 2 := by omega
  · simp only [pathOf, List.take_succ_cons, List.take_zero, List.cons.injEq, ofNat_eq_iff, and_true]
    omega
  · simp only [pathOf, List.take_succ_cons, List.take_zero, List.cons.injEq, ofNat_eq_iff, and_true]
    omega
  · simp only [pathOf, List.take_succ_cons, List.take_zero, List.cons.injEq, ofNat_eq_iff, and_true]
    omega

section Leaf

variable {m : Memory} {pml4 virt entry below : ℕ}

theorem lookup_of_leafEntry (found : leafEntry m pml4 virt = some (entry, below)) :
    lookup entryChild (tableEntries m) pml4 (pathOf virt) = some (entry, below) ∧
      entryPresent entry = true := by
  obtain ⟨here, present⟩ := Option.filter_eq_some_iff.mp found
  exact ⟨here, present⟩

/-- The entry that maps an address maps all addresses of the page. -/
theorem leafEntry_of_page (found : leafEntry m pml4 virt = some (entry, below)) (few : below < 3) {w : ℕ}
    (same : w / 2 ^ (12 + 9 * below) = virt / 2 ^ (12 + 9 * below)) :
    leafEntry m pml4 w = some (entry, below) := by
  obtain ⟨here, present⟩ := lookup_of_leafEntry found
  have length : (pathOf w).length = (pathOf virt).length := rfl
  exact leafEntry_of_present (lookup_of_take here length (take_pathOf few same)).1 present

theorem walk_eq_ok (found : leafEntry m pml4 virt = some (entry, below)) (few : below < 3) :
    walk m pml4 virt = .ok (entryLeaf entry (12 + 9 * below) virt) := by
  have present := (lookup_of_leafEntry found).2
  have inner : below ≠ 3 := by omega
  rw [walk_eq_leaf, found]
  simp only [resolve, present, Bool.not_true, Bool.false_eq_true, if_false, if_neg inner]

/-- A walk that succeeds ends at an entry of one of the three lower levels. -/
theorem leafEntry_of_walk {leaf : Leaf} (mapped : walk m pml4 virt = .ok leaf) :
    ∃ entry below, leafEntry m pml4 virt = some (entry, below) ∧ below < 3 ∧
      leaf = entryLeaf entry (12 + 9 * below) virt := by
  cases found : leafEntry m pml4 virt with
  | none =>
    rw [walk_eq_leaf, found] at mapped
    cases mapped
  | some result =>
    obtain ⟨entry, below⟩ := result
    obtain ⟨here, present⟩ := lookup_of_leafEntry found
    have length : (pathOf virt).length = (pathOf virt).length := rfl
    have bound : below < 4 := (lookup_of_take here length rfl).2
    have inner : below ≠ 3 := by
      rintro rfl
      rw [walk_eq_leaf, found] at mapped
      simp only [resolve, present, Bool.not_true, Bool.false_eq_true, if_false, if_true, reduceCtorEq]
        at mapped
    have few : below < 3 := by omega
    rw [walk_eq_ok found few, Except.ok.injEq] at mapped
    exact ⟨entry, below, rfl, few, mapped.symm⟩

/-- A lookup that ends at a present entry stops at a large page, or goes down. -/
theorem lookup_level {table : ℕ} {i j : Fin 512} {path : List (Fin 512)}
    (found : lookup entryChild (tableEntries m) table (i :: j :: path) = some (entry, below))
    (present : entryPresent entry = true) :
    (entryPs (tableEntry m table i) = true ∧ below = path.length + 1) ∨
      (entryPs (tableEntry m table i) = false ∧
        lookup entryChild (tableEntries m) (tableEntry m table i &&& pteAddrMask) (j :: path) =
          some (entry, below)) := by
  cases link : entryChild (tableEntries m table i) with
  | none =>
    rw [lookup_of_none _ link, Option.some.injEq, Prod.mk.injEq] at found
    obtain ⟨rfl, rfl⟩ := found
    cases ps : entryPs (tableEntries m table i) with
    | false =>
      rw [entryChild_eq_some.mpr ⟨present, ps, rfl⟩] at link
      cases link
    | true => exact Or.inl ⟨ps, rfl⟩
  | some u =>
    obtain ⟨_, ps, rfl⟩ := entryChild_eq_some.mp link
    rw [lookup_of_some link (List.cons_ne_nil j path)] at found
    exact Or.inr ⟨ps, found⟩

theorem walkShift_of_leaf (found : leafEntry m pml4 virt = some (entry, below)) (few : below < 3) :
    walkShift m pml4 virt = 12 + 9 * below := by
  obtain ⟨here, present⟩ := lookup_of_leafEntry found
  rw [pathOf] at here
  rcases lookup_level here present with ⟨_, rfl⟩ | ⟨_, inPdpt⟩
  · exact absurd few (Nat.lt_irrefl 3)
  rw [pml4Index_eq] at inPdpt
  rcases lookup_level inPdpt present with ⟨ps, rfl⟩ | ⟨ps, inPd⟩
  · rw [pdptIndex_eq] at ps
    simp only [walkShift, ps, if_true]
    rfl
  rw [pdptIndex_eq] at ps inPd
  rcases lookup_level inPd present with ⟨ps', rfl⟩ | ⟨ps', inPt⟩
  · rw [pdIndex_eq] at ps'
    simp only [walkShift, ps, ps', Bool.false_eq_true, if_false, if_true]
    rfl
  rw [pdIndex_eq] at ps' inPt
  rw [lookup, Option.some.injEq, Prod.mk.injEq] at inPt
  obtain ⟨_, rfl⟩ := inPt
  simp only [walkShift, ps, ps', Bool.false_eq_true, if_false]

end Leaf

/-- A cached translation that the tables still give, for each address of its page. -/
def Cached (m : Memory) (pml4 : ℕ) (e : TlbEntry) : Prop :=
  ∃ entry below, below < 3 ∧ e.shift = 12 + 9 * below ∧ ∀ v, e.Covers v →
    Canonical v ∧ leafEntry m pml4 v = some (entry, below) ∧ entryLeaf entry e.shift v = e.leaf v

section Cached

variable {m : Memory} {pml4 : ℕ} {e : TlbEntry}

theorem Cached.walk (cached : Cached m pml4 e) {v : ℕ} (covers : e.Covers v) :
    Canonical v ∧ walk m pml4 v = .ok (e.leaf v) ∧ walkShift m pml4 v = e.shift := by
  obtain ⟨entry, below, few, shift, page⟩ := cached
  obtain ⟨canonical, found, leaf⟩ := page v covers
  rw [walk_eq_ok found few, walkShift_of_leaf found few, ← shift, leaf]
  exact ⟨canonical, rfl, rfl⟩

theorem Cached.congr {m' : Memory} (cached : Cached m pml4 e)
    (same : ∀ v, e.Covers v → leafEntry m' pml4 v = leafEntry m pml4 v) : Cached m' pml4 e := by
  obtain ⟨entry, below, few, shift, page⟩ := cached
  refine ⟨entry, below, few, shift, fun v covers => ?_⟩
  obtain ⟨canonical, found, leaf⟩ := page v covers
  exact ⟨canonical, (same v covers).trans found, leaf⟩

/-- Pages do not reach across the border of the canonical addresses. -/
theorem canonical_of_page {v w below : ℕ} (few : below < 3) (canonical : Canonical v)
    (same : w / 2 ^ (12 + 9 * below) = v / 2 ^ (12 + 9 * below)) : Canonical w := by
  unfold Canonical at *
  obtain rfl | rfl | rfl : below = 0 ∨ below = 1 ∨ below = 2 := by omega
  · omega
  · omega
  · omega

/-- What a walk adds is good. -/
theorem tlbFill_cached {v : ℕ} (canonical : Canonical v) : ∀ e ∈ tlbFill m pml4 v, Cached m pml4 e := by
  intro e member
  rw [tlbFill] at member
  cases mapped : Model.walk m pml4 v with
  | error fault =>
    rw [mapped] at member
    cases member
  | ok leaf =>
    obtain ⟨entry, below, found, few, rfl⟩ := leafEntry_of_walk mapped
    rw [mapped] at member
    simp only [walkShift_of_leaf found few] at member
    obtain rfl := List.mem_singleton.mp member
    refine ⟨entry, below, few, rfl, fun w covers => ?_⟩
    refine ⟨canonical_of_page few canonical covers, leafEntry_of_page found few covers, ?_⟩
    simp only [entryLeaf, TlbEntry.leaf, Nat.add_sub_cancel]

/-- A mapped address is cached by its walk. -/
theorem tlbFill_covers {v : ℕ} {leaf : Leaf} (mapped : Model.walk m pml4 v = .ok leaf) :
    ∃ e ∈ tlbFill m pml4 v, e.shift = walkShift m pml4 v ∧ e.Covers v := by
  rw [tlbFill, mapped]
  exact ⟨_, List.mem_singleton_self _, rfl, rfl⟩

end Cached

end RaryOS.Model
