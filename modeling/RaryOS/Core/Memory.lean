import Mathlib.Data.BitVec
import Mathlib.Data.Nat.Bitwise
import Mathlib.Tactic.Ring

/-! # Byte-addressed memory with little-endian words

A memory gives a byte to every natural-number address. Words of any byte length are read and
written little-endian, as numbers; a value too large for its word is truncated by the store. The
laws are those of overlap: a load sees the last store to exactly its bytes, and nothing of a store
to other bytes. `load_testBit` ties the bits of a word to the bits of its bytes.
-/

namespace RaryOS.Core

/-- One byte at every address. -/
abbrev Memory := ℕ → BitVec 8

namespace Memory

/-- The little-endian value of `length` bytes. -/
def load (m : Memory) (address : ℕ) : ℕ → ℕ
  | 0 => 0
  | length + 1 => (m address).toNat + 256 * load m (address + 1) length

/-- Write the low `length` bytes of a value, least significant byte first. -/
def store (m : Memory) (address length value : ℕ) : Memory := fun query =>
  if address ≤ query ∧ query < address + length then
    BitVec.ofNat 8 (value / 256 ^ (query - address))
  else m query

/-- Give every byte of an interval the same value. -/
def fill (m : Memory) (address length : ℕ) (value : BitVec 8) : Memory := fun query =>
  if address ≤ query ∧ query < address + length then value else m query

def load32 (m : Memory) (address : ℕ) : ℕ := m.load address 4
def load64 (m : Memory) (address : ℕ) : ℕ := m.load address 8
def store8 (m : Memory) (address : ℕ) (value : BitVec 8) : Memory := fun query =>
  if query = address then value else m query
def store32 (m : Memory) (address value : ℕ) : Memory := m.store address 4 value
def store64 (m : Memory) (address value : ℕ) : Memory := m.store address 8 value

/-- Two memories hold the same bytes in an interval. -/
def Agree (m m' : Memory) (address length : ℕ) : Prop :=
  ∀ query, address ≤ query → query < address + length → m' query = m query

theorem store_apply_of_outside (m : Memory) {address length query : ℕ} (value : ℕ)
    (outside : query < address ∨ address + length ≤ query) :
    m.store address length value query = m query := by
  rw [store, if_neg (by omega)]

@[simp] theorem store8_apply_same (m : Memory) (address : ℕ) (value : BitVec 8) :
    m.store8 address value address = value := if_pos rfl

theorem store8_apply_of_ne (m : Memory) {address query : ℕ} (value : BitVec 8)
    (ne : query ≠ address) : m.store8 address value query = m query := if_neg ne

theorem fill_apply_of_outside (m : Memory) {address length query : ℕ} (value : BitVec 8)
    (outside : query < address ∨ address + length ≤ query) :
    m.fill address length value query = m query := by
  rw [fill, if_neg (by omega)]

theorem fill_apply_of_inside (m : Memory) {address length query : ℕ} (value : BitVec 8)
    (lower : address ≤ query) (upper : query < address + length) :
    m.fill address length value query = value := by
  rw [fill, if_pos ⟨lower, upper⟩]

/-- A load depends on exactly its bytes. -/
theorem load_congr {m m' : Memory} {address length : ℕ} (agree : Agree m m' address length) :
    m'.load address length = m.load address length := by
  induction length generalizing address with
  | zero => rfl
  | succ length ih =>
    have rest : Agree m m' (address + 1) length :=
      fun query lower upper => agree query (by omega) (by omega)
    simp only [load, ih rest, agree address le_rfl (by omega)]

/-- Two loads of the same bytes, also at different places. -/
theorem load_eq_of_bytes {m m' : Memory} {address address' length : ℕ}
    (bytes : ∀ k < length, m' (address' + k) = m (address + k)) :
    m'.load address' length = m.load address length := by
  induction length generalizing address address' with
  | zero => rfl
  | succ length ih =>
    have first : m' address' = m address := bytes 0 (Nat.succ_pos length)
    have rest : ∀ k < length, m' (address' + 1 + k) = m (address + 1 + k) := by
      intro k inside
      simpa only [Nat.add_assoc, Nat.add_comm 1 k] using bytes (k + 1) (Nat.succ_lt_succ inside)
    rw [load, load, first, ih rest]

theorem load_lt (m : Memory) (address length : ℕ) : m.load address length < 256 ^ length := by
  induction length generalizing address with
  | zero => simp only [load, pow_zero, Nat.lt_one_iff]
  | succ length ih =>
    have byte := (m address).isLt
    have rest := ih (address + 1)
    rw [load, pow_succ]
    omega

theorem load32_lt (m : Memory) (address : ℕ) : m.load32 address < 2 ^ 32 := m.load_lt address 4

theorem load64_lt (m : Memory) (address : ℕ) : m.load64 address < 2 ^ 64 := m.load_lt address 8

/-- Reading back the stored bytes yields the value, truncated to the word. -/
theorem load_store_same (m : Memory) (address length value : ℕ) :
    (m.store address length value).load address length = value % 256 ^ length := by
  induction length generalizing m address value with
  | zero => simp only [load, pow_zero, Nat.mod_one]
  | succ length ih =>
    have head : (m.store address (length + 1) value address).toNat = value % 256 := by
      rw [store, if_pos ⟨le_rfl, by omega⟩, Nat.sub_self, pow_zero, Nat.div_one, BitVec.toNat_ofNat]
    have tail : (m.store address (length + 1) value).load (address + 1) length =
        (m.store (address + 1) length (value / 256)).load (address + 1) length := by
      apply load_congr
      intro query lower upper
      rw [store, store, if_pos ⟨by omega, by omega⟩, if_pos ⟨by omega, by omega⟩,
        show query - address = query - (address + 1) + 1 by omega, pow_succ', Nat.div_div_eq_div_mul]
    rw [load, head, tail, ih, pow_succ', Nat.mod_mul]

theorem load_store_of_disjoint (m : Memory) {address length query width : ℕ} (value : ℕ)
    (apart : query + width ≤ address ∨ address + length ≤ query) :
    (m.store address length value).load query width = m.load query width :=
  load_congr fun _ _ _ => m.store_apply_of_outside value (by omega)

theorem load_store8_of_disjoint (m : Memory) {address query width : ℕ} (value : BitVec 8)
    (apart : address < query ∨ query + width ≤ address) :
    (m.store8 address value).load query width = m.load query width :=
  load_congr fun _ _ _ => m.store8_apply_of_ne value (by omega)

/-- A word inside a zeroed interval reads as zero. -/
theorem load_fill_zero (m : Memory) {address length query width : ℕ} (lower : address ≤ query)
    (upper : query + width ≤ address + length) : (m.fill address length 0).load query width = 0 := by
  induction width generalizing query with
  | zero => rfl
  | succ width ih =>
    rw [load, ih (by omega) (by omega), fill_apply_of_inside m 0 lower (by omega)]
    rfl

/-- The bits of a word are the bits of its bytes. -/
theorem load_testBit (m : Memory) (address length i : ℕ) :
    (m.load address length).testBit i =
      (decide (i < 8 * length) && (m (address + i / 8)).getLsbD (i % 8)) := by
  induction length generalizing address i with
  | zero => simp only [load, Nat.zero_testBit, Nat.mul_zero, Nat.not_lt_zero, decide_false, Bool.false_and]
  | succ length ih =>
    rw [load, Nat.add_comm, show (256 : ℕ) = 2 ^ 8 from rfl,
      Nat.testBit_two_pow_mul_add _ (m address).isLt]
    split
    · next low =>
      rw [Nat.div_eq_of_lt low, Nat.mod_eq_of_lt low, decide_eq_true (by omega), Bool.true_and]
      rfl
    · next high =>
      rw [ih, show address + 1 + (i - 8) / 8 = address + i / 8 by omega,
        show (i - 8) % 8 = i % 8 by omega]
      congr 1
      exact decide_eq_decide.mpr (by omega)

/-- The bits of the bytes of a stored word are the bits of the value. -/
theorem store_getLsbD (m : Memory) (address length value : ℕ) {i : ℕ} (bound : i < 8 * length) :
    (m.store address length value (address + i / 8)).getLsbD (i % 8) = value.testBit i := by
  rw [store, if_pos ⟨by omega, by omega⟩, BitVec.getLsbD_ofNat, decide_eq_true (by omega),
    Bool.true_and, show address + i / 8 - address = i / 8 by omega,
    show (256 : ℕ) ^ (i / 8) = 2 ^ (8 * (i / 8)) by rw [pow_mul]; rfl, Nat.testBit_div_two_pow]
  congr 1
  omega

@[simp] theorem load32_store32_same (m : Memory) (address value : ℕ) :
    (m.store32 address value).load32 address = value % 2 ^ 32 := m.load_store_same address 4 value

@[simp] theorem load64_store64_same (m : Memory) (address value : ℕ) :
    (m.store64 address value).load64 address = value % 2 ^ 64 := m.load_store_same address 8 value

/-- A word is its two halves. -/
theorem load64_eq_load32 (m : Memory) (address : ℕ) :
    m.load64 address = m.load32 address + 2 ^ 32 * m.load32 (address + 4) := by
  simp only [load64, load32, load, Nat.add_assoc, Nat.reduceAdd]
  omega

end Memory

end RaryOS.Core
