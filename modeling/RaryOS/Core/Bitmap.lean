import RaryOS.Core.Memory

/-! # Bitmaps in memory, seen as bytes and as 64-bit words

Bit `i` of a bitmap lies in byte `i / 8` at position `i % 8`. On a little-endian machine the same
bit is bit `i % 64` of word `i / 64`, so a bitmap may be written bytewise and scanned wordwise. Every
update is described by what it does to `test`, and by the bytes it leaves alone.
-/

namespace RaryOS.Core

/-- The number of trailing zero bits of a nonzero 64-bit word. -/
def ctz64 (word : ℕ) : ℕ := ((List.range 64).find? word.testBit).getD 64

/-- The position found is the lowest set bit. -/
theorem ctz64_spec {word : ℕ} (nonzero : ∃ j < 64, word.testBit j) :
    ctz64 word < 64 ∧ word.testBit (ctz64 word) ∧ ∀ j < ctz64 word, word.testBit j = false := by
  cases found : (List.range 64).find? word.testBit with
  | none =>
    obtain ⟨j, bound, set⟩ := nonzero
    have := List.find?_eq_none.mp found j (List.mem_range.mpr bound)
    exact absurd set this
  | some i =>
    have value : ctz64 word = i := by rw [ctz64, found, Option.getD_some]
    obtain ⟨set, before⟩ := List.find?_range_eq_some.mp found |>.imp id id
    rw [value]
    exact ⟨List.mem_range.mp before.1, set, fun j lt => by simpa using before.2 j lt⟩

namespace Bitmap

/-- Whether bit `i` of the bitmap at `base` is set. -/
def test (m : Memory) (base i : ℕ) : Bool := (m (base + i / 8)).getLsbD (i % 8)

/-- Set one bit by rewriting its byte. -/
def set (m : Memory) (base i : ℕ) : Memory :=
  m.store8 (base + i / 8) (m (base + i / 8) ||| (1#8 <<< (i % 8)))

/-- Clear one bit by rewriting its byte. -/
def clear (m : Memory) (base i : ℕ) : Memory :=
  m.store8 (base + i / 8) (m (base + i / 8) &&& ~~~(1#8 <<< (i % 8)))

/-- The word view of the bitmap. -/
def word (m : Memory) (base w : ℕ) : ℕ := m.load64 (base + 8 * w)

/-- Set every bit of a mask in one word. -/
def orWord (m : Memory) (base w mask : ℕ) : Memory :=
  m.store64 (base + 8 * w) (word m base w ||| mask)

private theorem bit_getLsbD {k j : ℕ} (bound : j < 8) : (1#8 <<< k).getLsbD j = decide (k = j) := by
  rw [BitVec.getLsbD_shiftLeft, BitVec.getLsbD_ofNat, decide_eq_true bound, Bool.true_and]
  by_cases low : j < k
  · simp only [low, decide_true, Bool.not_true, Bool.false_and, show k ≠ j by omega, decide_false]
  · by_cases same : k = j
    · subst same
      simp
    · obtain ⟨d, hd⟩ : ∃ d, j - k = d + 1 := ⟨j - k - 1, by omega⟩
      simp [hd, same, Nat.testBit_succ]

theorem test_set (m : Memory) (base i j : ℕ) :
    test (set m base i) base j = (decide (i = j) || test m base j) := by
  rw [test, set]
  by_cases byte : j / 8 = i / 8
  · rw [byte, Memory.store8_apply_same, BitVec.getLsbD_or, bit_getLsbD (Nat.mod_lt _ (by omega)),
      test, byte, Bool.or_comm]
    congr 1
    exact decide_eq_decide.mpr (by omega)
  · rw [Memory.store8_apply_of_ne _ _ (by omega), decide_eq_false (by rintro rfl; exact byte rfl),
      Bool.false_or, test]

theorem test_clear (m : Memory) (base i j : ℕ) :
    test (clear m base i) base j = (!decide (i = j) && test m base j) := by
  rw [test, clear]
  by_cases byte : j / 8 = i / 8
  · rw [byte, Memory.store8_apply_same, BitVec.getLsbD_and, BitVec.getLsbD_not,
      bit_getLsbD (Nat.mod_lt _ (by omega)), test, byte, Bool.and_comm,
      decide_eq_true (Nat.mod_lt _ (by omega)), Bool.true_and]
    congr 2
    exact decide_eq_decide.mpr (by omega)
  · rw [Memory.store8_apply_of_ne _ _ (by omega), decide_eq_false (by rintro rfl; exact byte rfl),
      Bool.not_false, Bool.true_and, test]

/-- The bits of a word are the bits of the bitmap at its place. -/
theorem word_testBit (m : Memory) (base w j : ℕ) :
    (word m base w).testBit j = (decide (j < 64) && test m base (64 * w + j)) := by
  rw [word, Memory.load64, Memory.load_testBit, test,
    show base + 8 * w + j / 8 = base + (64 * w + j) / 8 by omega,
    show j % 8 = (64 * w + j) % 8 by omega]

theorem word_lt (m : Memory) (base w : ℕ) : word m base w < 2 ^ 64 := m.load64_lt _

/-- A word is all ones exactly when every bit of its part of the bitmap is set. -/
theorem word_eq_full_iff (m : Memory) (base w : ℕ) :
    word m base w = 2 ^ 64 - 1 ↔ ∀ j < 64, test m base (64 * w + j) = true := by
  constructor
  · intro full j bound
    have bit := word_testBit m base w j
    rw [full, Nat.testBit_two_pow_sub_one, decide_eq_true bound, Bool.true_and] at bit
    exact bit.symm
  · intro full
    apply Nat.eq_of_testBit_eq
    intro j
    rw [word_testBit, Nat.testBit_two_pow_sub_one]
    by_cases bound : j < 64
    · rw [full j bound, Bool.and_true]
    · rw [decide_eq_false bound, Bool.false_and]

/-- The complement of a word has exactly its clear bits. -/
theorem not_word_testBit (m : Memory) (base w : ℕ) {j : ℕ} (bound : j < 64) :
    (2 ^ 64 - 1 - word m base w).testBit j = !test m base (64 * w + j) := by
  rw [show 2 ^ 64 - 1 - word m base w = 2 ^ 64 - (word m base w + 1) by omega,
    Nat.testBit_two_pow_sub_succ (word_lt m base w), word_testBit, decide_eq_true bound,
    Bool.true_and, Bool.true_and]

/-- What a wordwise update does to the bits. -/
theorem test_orWord (m : Memory) (base w mask i : ℕ) :
    test (orWord m base w mask) base i =
      ((decide (i / 64 = w) && mask.testBit (i % 64)) || test m base i) := by
  by_cases inside : i / 64 = w
  · have place : i / 8 = 8 * w + (i % 64) / 8 := by omega
    have bit : i % 8 = (i % 64) % 8 := by omega
    have stored := m.store_getLsbD (base + 8 * w) 8 (word m base w ||| mask)
      (show i % 64 < 8 * 8 by omega)
    rw [test, place, bit, orWord, Memory.store64, ← Nat.add_assoc, stored, Nat.testBit_or,
      word_testBit, decide_eq_true (Nat.mod_lt _ (by omega)), Bool.true_and, decide_eq_true inside,
      Bool.true_and, show 64 * w + i % 64 = i by omega, Bool.or_comm]
  · rw [decide_eq_false inside, Bool.false_and, Bool.false_or, test, orWord, Memory.store64,
      Memory.store_apply_of_outside _ _ (by omega), test]

/-- Setting one bit through the word view sets exactly that bit. -/
theorem test_orWord_two_pow (m : Memory) (base w i : ℕ) {j : ℕ} (bound : j < 64) :
    test (orWord m base w (2 ^ j)) base i = (decide (64 * w + j = i) || test m base i) := by
  rw [test_orWord, Nat.testBit_two_pow, ← Bool.decide_and]
  congr 1
  exact decide_eq_decide.mpr (by omega)

/-- A bitmap depends only on its bytes. -/
theorem test_congr {m m' : Memory} {base i : ℕ} (same : m' (base + i / 8) = m (base + i / 8)) :
    test m' base i = test m base i := by
  rw [test, test, same]

theorem set_apply_of_ne (m : Memory) (base i : ℕ) {query : ℕ} (ne : query ≠ base + i / 8) :
    set m base i query = m query := m.store8_apply_of_ne _ ne

theorem clear_apply_of_ne (m : Memory) (base i : ℕ) {query : ℕ} (ne : query ≠ base + i / 8) :
    clear m base i query = m query := m.store8_apply_of_ne _ ne

theorem orWord_apply_of_outside (m : Memory) (base w mask : ℕ) {query : ℕ}
    (outside : query < base + 8 * w ∨ base + 8 * w + 8 ≤ query) :
    orWord m base w mask query = m query := m.store_apply_of_outside _ outside

end Bitmap

end RaryOS.Core
