import Mathlib.Data.BitVec
import RaryOS.Core.Memory

/-! # A stack of words

The stack grows downwards in memory. What is pushed lies above the stack pointer in the reverse order, nothing else
changes, and popping goes through these words upwards.
-/

namespace RaryOS.Core

/-- The words from an address on. -/
def wordsFrom (m : Memory) (address n : ℕ) : List (BitVec 64) :=
  (List.range n).map fun k => BitVec.ofNat 64 (m.load64 (address + 8 * k))

/-- The memory and the stack pointer. -/
structure CallStack where
  mem : Memory
  sp : BitVec 64

namespace CallStack

def push (s : CallStack) (word : BitVec 64) : CallStack :=
  { mem := s.mem.store64 (s.sp - 8).toNat word.toNat, sp := s.sp - 8 }

def top (s : CallStack) : BitVec 64 := BitVec.ofNat 64 (s.mem.load64 s.sp.toNat)

def drop (s : CallStack) : CallStack := { s with sp := s.sp + 8 }

def pushAll (s : CallStack) (words : List (BitVec 64)) : CallStack := words.foldl push s

@[simp] theorem pushAll_nil (s : CallStack) : s.pushAll [] = s := rfl

@[simp] theorem pushAll_cons (s : CallStack) (word : BitVec 64) (rest : List (BitVec 64)) :
    s.pushAll (word :: rest) = (s.push word).pushAll rest := rfl

theorem pushAll_append (s : CallStack) (first second : List (BitVec 64)) :
    s.pushAll (first ++ second) = (s.pushAll first).pushAll second :=
  List.foldl_append

variable {s : CallStack} {words : List (BitVec 64)} {word : BitVec 64}

theorem toNat_sub {sp : BitVec 64} {n : ℕ} (room : n ≤ sp.toNat) (small : n < 2 ^ 64) :
    (sp - BitVec.ofNat 64 n).toNat = sp.toNat - n := by
  have bound := sp.isLt
  rw [BitVec.toNat_sub, BitVec.toNat_ofNat]
  omega

theorem toNat_add {sp : BitVec 64} {n : ℕ} (room : sp.toNat + n < 2 ^ 64) :
    (sp + BitVec.ofNat 64 n).toNat = sp.toNat + n := by
  rw [BitVec.toNat_add, BitVec.toNat_ofNat, Nat.mod_eq_of_lt (Nat.lt_of_le_of_lt (Nat.le_add_left _ _) room)]
  exact Nat.mod_eq_of_lt room

theorem push_sp (room : 8 ≤ s.sp.toNat) : (s.push word).sp.toNat = s.sp.toNat - 8 := toNat_sub room (by decide)

theorem pushAll_sp (room : 8 * words.length ≤ s.sp.toNat) :
    (s.pushAll words).sp.toNat = s.sp.toNat - 8 * words.length := by
  induction words generalizing s with
  | nil => rfl
  | cons word rest ih =>
    rw [List.length_cons] at room ⊢
    have next : (s.push word).sp.toNat = s.sp.toNat - 8 := push_sp (by omega)
    rw [pushAll_cons, ih (by omega), next]
    omega

/-- Pushing writes right below the stack pointer only. -/
theorem pushAll_other (room : 8 * words.length ≤ s.sp.toNat) {place : ℕ}
    (other : place < s.sp.toNat - 8 * words.length ∨ s.sp.toNat ≤ place) :
    (s.pushAll words).mem place = s.mem place := by
  induction words generalizing s with
  | nil => rfl
  | cons word rest ih =>
    rw [List.length_cons] at room other
    have next : (s.push word).sp.toNat = s.sp.toNat - 8 := push_sp (by omega)
    rw [pushAll_cons, ih (by omega) (by omega)]
    apply Memory.store_apply_of_outside
    change place < (s.push word).sp.toNat ∨ (s.push word).sp.toNat + 8 ≤ place
    omega

theorem wordsFrom_congr {m m' : Memory} {address n : ℕ}
    (same : ∀ place, address ≤ place → place < address + 8 * n → m' place = m place) :
    wordsFrom m' address n = wordsFrom m address n := by
  apply List.map_congr_left
  intro k member
  have inside := List.mem_range.mp member
  congr 1
  exact Memory.load_congr fun place lower upper => same place (by omega) (by omega)

theorem wordsFrom_add (m : Memory) (address n k : ℕ) :
    wordsFrom m address (n + k) = wordsFrom m address n ++ wordsFrom m (address + 8 * n) k := by
  have second : ((List.range k).map (n + ·)).map (fun i => BitVec.ofNat 64 (m.load64 (address + 8 * i))) =
      wordsFrom m (address + 8 * n) k := by
    rw [List.map_map, wordsFrom]
    apply List.map_congr_left
    intro i _
    rw [Function.comp_apply, Nat.mul_add, Nat.add_assoc]
  rw [← second, wordsFrom, wordsFrom, List.range_add, List.map_append]

theorem wordsFrom_succ (m : Memory) (address n : ℕ) :
    wordsFrom m address (n + 1) = BitVec.ofNat 64 (m.load64 address) :: wordsFrom m (address + 8) n := by
  rw [Nat.add_comm n, wordsFrom_add]
  rfl

theorem length_wordsFrom (m : Memory) (address n : ℕ) : (wordsFrom m address n).length = n := by
  rw [wordsFrom, List.length_map, List.length_range]

theorem getElem?_wordsFrom (m : Memory) (address : ℕ) {n k : ℕ} (inside : k < n) :
    (wordsFrom m address n)[k]? = some (BitVec.ofNat 64 (m.load64 (address + 8 * k))) := by
  rw [wordsFrom, List.getElem?_map, List.getElem?_range inside]
  rfl

theorem push_top : (s.push word).top = word := by
  rw [top, push, Memory.load64_store64_same, Nat.mod_eq_of_lt word.isLt, BitVec.ofNat_toNat, BitVec.setWidth_eq]

/-- The pushed words lie above the stack pointer, the last one first. -/
theorem wordsFrom_pushAll (room : 8 * words.length ≤ s.sp.toNat) :
    wordsFrom (s.pushAll words).mem (s.pushAll words).sp.toNat words.length = words.reverse := by
  induction words generalizing s with
  | nil => rfl
  | cons word rest ih =>
    rw [List.length_cons] at room ⊢
    have next : (s.push word).sp.toNat = s.sp.toNat - 8 := push_sp (by omega)
    have room' : 8 * rest.length ≤ (s.push word).sp.toNat := by omega
    have pointer : ((s.push word).pushAll rest).sp.toNat + 8 * rest.length = (s.push word).sp.toNat := by
      rw [pushAll_sp room']
      omega
    have first : wordsFrom ((s.push word).pushAll rest).mem (s.push word).sp.toNat 1 = [word] := by
      rw [wordsFrom_congr (m := (s.push word).mem) fun place lower _ => pushAll_other room' (Or.inr lower)]
      exact congrArg (fun w => [w]) push_top
    rw [pushAll_cons, wordsFrom_add, ih room', pointer, first, List.reverse_cons]

end CallStack

end RaryOS.Core
