import Mathlib.Algebra.Order.Group.Nat
import Mathlib.Data.List.Basic
import RaryOS.Core.Memory

/-! # Sequences of word stores

A loop that stores words one by one is described by the list of its stores, in order: an address and a
value each. What the list does to a memory is told by two laws. A byte that no store covers keeps its
value, and a word that was stored and that no other store overlaps reads as its value. Stores that do not
overlap may be made in any order. Copying bytes in place towards lower addresses is not of this kind, since
it reads what it overwrites later.
-/

namespace RaryOS.Core

/-- A loop over `n` blocks of `size` indices is a loop over all of them. -/
theorem flatMap_range_mul {α : Type*} (n size : ℕ) (f : ℕ → List α) :
    (List.range (n * size)).flatMap f =
      (List.range n).flatMap fun q => (List.range size).flatMap fun r => f (q * size + r) := by
  induction n with
  | zero => rw [Nat.zero_mul, List.range_zero, List.flatMap_nil, List.flatMap_nil]
  | succ n ih =>
    rw [Nat.succ_mul, List.range_add, List.flatMap_append, ih, List.flatMap_map, List.range_succ,
      List.flatMap_append, List.flatMap_cons, List.flatMap_nil, List.append_nil]

theorem map_range_mul {α : Type*} (n size : ℕ) (f : ℕ → α) :
    (List.range (n * size)).map f =
      (List.range n).flatMap fun q => (List.range size).map fun r => f (q * size + r) := by
  simp only [List.map_eq_flatMap, flatMap_range_mul]

/-- Addresses and values of stores, the first store first. -/
abbrev StoreLog := List (ℕ × ℕ)

namespace StoreLog

/-- The byte is one of those that the stores write. -/
def Covers (log : StoreLog) (width query : ℕ) : Prop := ∃ s ∈ log, s.1 ≤ query ∧ query < s.1 + width

theorem covers_cons (s : ℕ × ℕ) (log : StoreLog) (width query : ℕ) :
    Covers (s :: log) width query ↔ (s.1 ≤ query ∧ query < s.1 + width) ∨ Covers log width query :=
  List.exists_mem_cons_iff _ _ _

end StoreLog

namespace Memory

variable {width : ℕ}

/-- All stores of a list, each of `width` bytes. -/
def storeAll (m : Memory) (width : ℕ) (log : StoreLog) : Memory :=
  log.foldl (fun m s => m.store s.1 width s.2) m

@[simp] theorem storeAll_nil (m : Memory) : m.storeAll width [] = m := rfl

@[simp] theorem storeAll_cons (m : Memory) (s : ℕ × ℕ) (log : StoreLog) :
    m.storeAll width (s :: log) = (m.store s.1 width s.2).storeAll width log := rfl

/-- A byte that no store covers. -/
theorem storeAll_apply_of_not_covers (m : Memory) {log : StoreLog} {query : ℕ}
    (outside : ¬log.Covers width query) : m.storeAll width log query = m query := by
  induction log generalizing m with
  | nil => rfl
  | cons s log ih =>
    rw [StoreLog.covers_cons, not_or] at outside
    rw [storeAll_cons, ih _ outside.2]
    exact m.store_apply_of_outside s.2 (by omega)

/-- A word that no store overlaps. -/
theorem load_storeAll_of_apart (m : Memory) {log : StoreLog} {address length : ℕ}
    (apart : ∀ s ∈ log, address + length ≤ s.1 ∨ s.1 + width ≤ address) :
    (m.storeAll width log).load address length = m.load address length := by
  apply load_congr
  intro query lower upper
  apply storeAll_apply_of_not_covers
  rintro ⟨s, member, first, last⟩
  have clear := apart s member
  omega

/-- A stored word, when the other stores are the same or do not overlap it. -/
theorem load_storeAll_of_mem (m : Memory) {log : StoreLog} {address value : ℕ}
    (member : (address, value) ∈ log)
    (apart : ∀ s ∈ log, s = (address, value) ∨ address + width ≤ s.1 ∨ s.1 + width ≤ address) :
    (m.storeAll width log).load address width = value % 256 ^ width := by
  induction log generalizing m with
  | nil => cases member
  | cons s log ih =>
    have later := fun other here => apart other (List.mem_cons_of_mem s here)
    by_cases again : (address, value) ∈ log
    · exact ih _ again later
    · obtain rfl := (List.mem_cons.mp member).resolve_right again
      rw [storeAll_cons, load_storeAll_of_apart, load_store_same]
      intro other here
      refine (later other here).resolve_left ?_
      rintro rfl
      exact again here

theorem store_comm (m : Memory) {a b : ℕ} (v u : ℕ) (apart : a + width ≤ b ∨ b + width ≤ a) :
    (m.store a width v).store b width u = (m.store b width u).store a width v := by
  apply funext
  intro query
  by_cases first : a ≤ query ∧ query < a + width
  · have elsewhere : ¬(b ≤ query ∧ query < b + width) := by omega
    simp only [store, if_pos first, if_neg elsewhere]
  · simp only [store, if_neg first]

/-- Stores that do not overlap, in any order. -/
theorem storeAll_perm (m : Memory) {log log' : StoreLog} (perm : log.Perm log')
    (apart : ∀ s ∈ log, ∀ t ∈ log, s = t ∨ s.1 + width ≤ t.1 ∨ t.1 + width ≤ s.1) :
    m.storeAll width log = m.storeAll width log' := by
  apply perm.foldl_eq'
  intro s first t second m
  rcases apart s first t second with rfl | clear
  · rfl
  · exact m.store_comm _ _ clear

/-- Bytes copied in place, from the lowest address up, to where they came from or below. -/
theorem copyDown_apply (m : Memory) {dst src : ℕ} (down : dst ≤ src) (n query : ℕ) :
    (List.range n).foldl (fun m i => m.store8 (dst + i) (m (src + i))) m query =
      if dst ≤ query ∧ query < dst + n then m (src + (query - dst)) else m query := by
  induction n generalizing query with
  | zero => rw [if_neg (by omega), List.range_zero, List.foldl_nil]
  | succ n ih =>
    rw [List.range_succ, List.foldl_append, List.foldl_cons, List.foldl_nil]
    -- The source byte lies at or above all bytes that are already copied.
    have source := ih (src + n)
    rw [if_neg (by omega)] at source
    rcases Nat.lt_trichotomy query (dst + n) with copied | rfl | above
    · rw [store8_apply_of_ne _ _ (by omega), ih]
      exact if_congr (by omega) rfl rfl
    · rw [store8_apply_same, source, if_pos (by omega), Nat.add_sub_cancel_left]
    · rw [store8_apply_of_ne _ _ (by omega), ih, if_neg (by omega), if_neg (by omega)]

end Memory

end RaryOS.Core
