import RaryOS.Core.Numeral
import RaryOS.Model.Stdlib

/-! # What the string and number functions do

Each function comes to an end on enough fuel, and touches only the bytes of its string. `reverse` exchanges the
ends and goes on with what is between them; the digit loop writes the digits of Mathlib, the lowest first.
-/

namespace RaryOS.Model

open RaryOS.Core

section Strlen

variable {m : Memory} {s : ℕ}

theorem strlenFrom_ensures {text : List (BitVec 8)} {i fuel : ℕ} (holds : m.Holds (s + i) (text ++ [0]))
    (nonzero : 0 ∉ text) (enough : text.length < fuel) :
    (strlenFrom s fuel i).Ensures m (Span (s + i) (text.length + 1)) (fun _ => False)
      fun n m' => n = i + text.length ∧ m' = m := by
  induction text generalizing i fuel with
  | nil =>
    obtain ⟨fuel, rfl⟩ := Nat.exists_eq_add_one_of_ne_zero (Nat.ne_zero_of_lt enough)
    rw [strlenFrom]
    apply Prog.Ensures.read_bind ⟨le_rfl, by omega⟩
    rw [if_neg (not_not.mpr holds.1)]
    exact .pure ⟨rfl, rfl⟩
  | cons c rest ih =>
    obtain ⟨fuel, rfl⟩ := Nat.exists_eq_add_one_of_ne_zero (Nat.ne_zero_of_lt enough)
    rw [List.mem_cons, not_or] at nonzero
    rw [List.length_cons] at enough ⊢
    rw [strlenFrom]
    apply Prog.Ensures.read_bind ⟨le_rfl, by omega⟩
    rw [if_pos (holds.1 ▸ Ne.symm nonzero.1)]
    apply (ih holds.2 nonzero.2 (show rest.length < fuel by omega)).mono
    · exact fun _ => Span.widen (by omega) (by omega)
    · exact fun _ never => never
    · rintro n m' ⟨length, same⟩
      exact ⟨by omega, same⟩

/-- `strlen` returns the length of the string, and reads it up to its terminator. -/
theorem strlen_ensures {text : List (BitVec 8)} {fuel : ℕ} (holds : m.Holds s (text ++ [0])) (nonzero : 0 ∉ text)
    (enough : text.length < fuel) :
    (strlen s fuel).Ensures m (Span s (text.length + 1)) (fun _ => False) fun n m' => n = text.length ∧ m' = m := by
  have counted := strlenFrom_ensures (i := 0) holds nonzero enough
  rw [Nat.zero_add] at counted
  exact counted

end Strlen

section Reverse

variable {m : Memory} {s : ℕ}

/-- The rounds that are left reverse what is between the ends already exchanged. -/
theorem reverseFrom_ensures {text : List (BitVec 8)} {size left i : ℕ} (holds : m.Holds (s + i) text)
    (length : text.length + 2 * i = size) (rounds : left = text.length / 2) :
    (reverseFrom s size left i).Ensures m (Span (s + i) text.length) (Span (s + i) text.length)
      fun _ m' => m'.Holds (s + i) text.reverse := by
  induction left generalizing m text i with
  | zero =>
    rw [reverseFrom]
    apply Prog.Ensures.pure
    rcases text with _ | ⟨c, _ | ⟨d, rest⟩⟩
    · exact trivial
    · exact holds
    · rw [List.length_cons, List.length_cons] at rounds
      omega
  | succ left ih =>
    -- The first and the last character, and the text between them.
    obtain ⟨a, inner, rfl⟩ := List.exists_cons_of_ne_nil (show text ≠ [] by rintro rfl; cases rounds)
    obtain ⟨mid, b, rfl⟩ : ∃ mid b, inner = mid ++ [b] := by
      rcases List.eq_nil_or_concat' inner with rfl | found
      · rw [List.length_singleton] at rounds
        omega
      · exact found
    rw [List.length_cons, List.length_append, List.length_singleton] at length rounds ⊢
    obtain ⟨atFirst, inside⟩ := holds
    obtain ⟨between, atLast, -⟩ := (Memory.holds_append _ _).mp inside
    have last : s + (size - i - 1) = s + i + 1 + mid.length := by omega
    rw [reverseFrom, last]
    apply Prog.Ensures.read_bind ⟨le_rfl, by omega⟩
    apply Prog.Ensures.read_bind ⟨by omega, by omega⟩
    apply Prog.Ensures.write_bind ⟨le_rfl, by omega⟩
    apply Prog.Ensures.write_bind ⟨by omega, by omega⟩
    rw [atFirst, atLast]
    have kept : ((m.store8 (s + i) b).store8 (s + i + 1 + mid.length) a).Holds (s + (i + 1)) mid := by
      refine between.congr fun k inside => ?_
      rw [Memory.store8_apply_of_ne _ _ (by omega), Memory.store8_apply_of_ne _ _ (by omega), Nat.add_assoc s]
    apply (ih kept (by omega) (by omega)).framed.mono
    · exact fun _ => Span.widen (by omega) (by omega)
    · exact fun _ => Span.widen (by omega) (by omega)
    · rintro _ m' ⟨reversed, unchanged⟩
      rw [List.reverse_cons, List.reverse_append, List.reverse_singleton, List.singleton_append, List.cons_append,
        Memory.Holds, Memory.holds_append, List.length_reverse]
      refine ⟨?_, reversed, ?_, trivial⟩
      · rw [unchanged _ (by rintro ⟨lower, -⟩; omega), Memory.store8_apply_of_ne _ _ (by omega),
          Memory.store8_apply_same]
      · rw [unchanged _ (by rintro ⟨-, upper⟩; omega), Memory.store8_apply_same]

/-- `reverse` reverses a string in place. -/
theorem reverse_ensures {text : List (BitVec 8)} {fuel : ℕ} (holds : m.Holds s (text ++ [0])) (nonzero : 0 ∉ text)
    (enough : text.length < fuel) :
    (reverse s fuel).Ensures m (Span s (text.length + 1)) (Span s text.length)
      fun _ m' => m'.Holds s (text.reverse ++ [0]) := by
  obtain ⟨here, zero, -⟩ := (Memory.holds_append _ _).mp holds
  apply Prog.Ensures.bind _ ((strlen_ensures holds nonzero enough).mono (fun _ good => good)
    (fun _ never => never.elim) (fun _ _ post => post))
  rintro _ _ ⟨rfl, rfl⟩
  have rounds := reverseFrom_ensures (s := s) (i := 0) here rfl rfl
  rw [Nat.add_zero] at rounds
  apply rounds.framed.mono
  · exact fun _ => Span.widen le_rfl (by omega)
  · exact fun _ good => good
  · rintro _ m' ⟨reversed, unchanged⟩
    rw [Memory.holds_append, List.length_reverse]
    refine ⟨reversed, ?_, trivial⟩
    rw [unchanged _ (by rintro ⟨-, upper⟩; omega)]
    exact zero

end Reverse

section Itoa

variable {m : Memory} {buffer : ℕ} {digits : List (BitVec 8)}

/-- The value of a digit of either case. -/
def digitValue (c : BitVec 8) : Option ℕ :=
  if 0x30 ≤ c ∧ c ≤ 0x39 then some (c - 0x30).toNat
  else if 0x41 ≤ c ∧ c ≤ 0x46 then some ((c - 0x41).toNat + 10)
  else if 0x61 ≤ c ∧ c ≤ 0x66 then some ((c - 0x61).toNat + 10)
  else none

/-- The symbols of an array of digits have the right values. -/
structure Digits (digits : List (BitVec 8)) : Prop where
  decimal : ∀ d < 10, digits.getD d 0 = BitVec.ofNat 8 (0x30 + d)
  value : ∀ d < 16, digitValue (digits.getD d 0) = some d

theorem Digits.zero (good : Digits digits) : digits.getD 0 0 = 0x30 := good.decimal 0 (by decide)

theorem Digits.nonzero (good : Digits digits) {d : ℕ} (small : d < 16) : digits.getD d 0 ≠ 0 := by
  intro zero
  have value := good.value d small
  have none : digitValue 0 = none := by decide
  rw [zero, none] at value
  cases value

theorem Digits.ne_minus (good : Digits digits) {d : ℕ} (small : d < 16) : digits.getD d 0 ≠ 0x2D := by
  intro minus
  have value := good.value d small
  have none : digitValue 0x2D = none := by decide
  rw [minus, none] at value
  cases value

theorem lib_digits : Digits Lib.digits := ⟨by decide, by decide⟩

theorem userLibc_digits : Digits UserLibc.digits := ⟨by decide, by decide⟩

/-- The loop writes the digits behind what is already written. -/
theorem itoaDigits_ensures {written : List (BitVec 8)} {base uvalue : BitVec 64} {fuel : ℕ}
    (holds : m.Holds buffer written) (least : 1 < base.toNat)
    (enough : (Nat.digits base.toNat uvalue.toNat).length < fuel) :
    (itoaDigits digits buffer base fuel written.length uvalue).Ensures m (fun _ => False)
      (Span (buffer + written.length) (Nat.digits base.toNat uvalue.toNat).length) fun n m' =>
        n = written.length + (Nat.digits base.toNat uvalue.toNat).length ∧
          m'.Holds buffer (written ++ (Nat.digits base.toNat uvalue.toNat).map (digits.getD · 0)) := by
  induction fuel generalizing m written uvalue with
  | zero => exact absurd enough (Nat.not_lt_zero _)
  | succ fuel ih =>
    rw [itoaDigits]
    split
    · next nonzero =>
      have positive : 0 < uvalue.toNat := Nat.pos_of_ne_zero fun zero => nonzero (BitVec.eq_of_toNat_eq zero)
      rw [Nat.digits_def' least positive] at enough ⊢
      rw [List.length_cons] at enough ⊢
      apply Prog.Ensures.write_bind ⟨le_rfl, by omega⟩
      have longer := holds.store8_snoc (digits.getD (uvalue % base).toNat 0)
      have quotient : (uvalue / base).toNat = uvalue.toNat / base.toNat := BitVec.toNat_udiv
      have enough' : (Nat.digits base.toNat (uvalue / base).toNat).length < fuel := by
        rw [quotient]
        omega
      have rest := ih longer enough'
      rw [quotient, List.length_append, List.length_singleton] at rest
      apply rest.mono
      · exact fun _ never => never
      · exact fun _ => Span.widen (by omega) (by omega)
      · rintro n m' ⟨count, written'⟩
        rw [List.append_assoc, List.singleton_append, BitVec.toNat_umod] at written'
        exact ⟨by omega, written'⟩
    · next zero =>
      obtain rfl := not_not.mp zero
      apply Prog.Ensures.pure
      rw [show (0 : BitVec 64).toNat = 0 from rfl, Nat.digits_zero, List.map_nil, List.append_nil]
      exact ⟨rfl, holds⟩

/-- The text for a value: a sign for a negative number in base 10. -/
def itoaText (digits : List (BitVec 8)) (value : BitVec 64) (base : BitVec 32) : List (BitVec 8) :=
  if base = 10 ∧ value.toInt < 0 then 0x2D :: numeral (digits.getD · 0) 10 value.toInt.natAbs
  else numeral (digits.getD · 0) base.toNat value.toNat

theorem numeral_nonzero (good : Digits digits) {b n : ℕ} (least : 1 < b) (most : b ≤ 16) :
    0 ∉ numeral (digits.getD · 0) b n := by
  intro member
  obtain ⟨d, small, zero⟩ := mem_numeral least member
  exact good.nonzero (by omega) zero.symm

theorem itoaText_nonzero (good : Digits digits) (value : BitVec 64) {base : BitVec 32} (ten : base = 10 ∨ base = 16) :
    0 ∉ itoaText digits value base := by
  rw [itoaText]
  split
  · rw [List.mem_cons, not_or]
    exact ⟨by decide, numeral_nonzero good (by decide) (by decide)⟩
  · rcases ten with rfl | rfl
    · exact numeral_nonzero good (by decide) (by decide)
    · exact numeral_nonzero good (by decide) (by decide)

/-- At most 20 characters: 19 digits with a sign or 20 without in base 10, 16 digits in base 16. -/
theorem length_itoaText (value : BitVec 64) {base : BitVec 32} (ten : base = 10 ∨ base = 16) :
    (itoaText digits value base).length ≤ 20 := by
  have word := value.isLt
  rw [itoaText]
  split
  · have magnitude : value.toInt.natAbs < 10 ^ 19 := by
      have least := BitVec.le_toInt value
      have most := BitVec.toInt_lt (x := value)
      omega
    rw [List.length_cons]
    exact Nat.succ_le_succ (length_numeral_le (by decide) (by decide) magnitude)
  · rcases ten with rfl | rfl
    · exact length_numeral_le (by decide) (by decide) (show value.toNat < 10 ^ 20 by omega)
    · exact length_numeral_le (by decide) (by decide) (word.trans (show 2 ^ 64 < 16 ^ 20 by decide))

/-- Terminate the digits and reverse them. -/
theorem terminate_ensures {written : List (BitVec 8)} {fuel : ℕ} (holds : m.Holds buffer written)
    (nonzero : 0 ∉ written) (enough : written.length < fuel) :
    (do Prog.write (buffer + written.length) 0; reverse buffer fuel).Ensures m (Span buffer (written.length + 1))
      (Span buffer (written.length + 1)) fun _ m' => m'.Holds buffer (written.reverse ++ [0]) := by
  apply Prog.Ensures.write_bind ⟨by omega, by omega⟩
  apply (reverse_ensures (holds.store8_snoc 0) nonzero enough).mono
  · exact fun _ good => good
  · exact fun _ => Span.widen le_rfl (by omega)
  · exact fun _ _ reversed => reversed

/-- The text `0`. -/
theorem zeroText_ensures (m : Memory) (buffer : ℕ) :
    (Prog.write buffer 0x30 >>= fun _ => Prog.write (buffer + 1) 0).Ensures m (Span buffer 2) (Span buffer 2)
      fun _ m' => m'.Holds buffer ([0x30] ++ [0]) := by
  apply Prog.Ensures.write_bind ⟨le_rfl, by omega⟩
  apply Prog.Ensures.write ⟨by omega, by omega⟩
  have first : (m.store8 buffer 0x30).Holds buffer [0x30] := ⟨m.store8_apply_same buffer 0x30, trivial⟩
  exact first.store8_snoc 0

/-- A sign behind the digits of a negative number; then the text is terminated and turned round. -/
theorem signed_ensures (isNegative : Bool) {low text : List (BitVec 8)} {fuel : ℕ} (holds : m.Holds buffer low)
    (nonzero : 0 ∉ low) (enough : text.length < fuel)
    (spelled : text = (if isNegative then [0x2D] else []) ++ low.reverse) :
    (if isNegative then Prog.write (buffer + low.length) 0x2D >>= fun _ =>
        Prog.write (buffer + (low.length + 1)) 0 >>= fun _ => reverse buffer fuel
      else Prog.write (buffer + low.length) 0 >>= fun _ => reverse buffer fuel).Ensures m
        (Span buffer (text.length + 1)) (Span buffer (text.length + 1)) fun _ m' => m'.Holds buffer (text ++ [0]) := by
  cases isNegative with
  | false =>
    obtain rfl : text = low.reverse := spelled
    rw [if_neg Bool.false_ne_true]
    rw [List.length_reverse] at enough ⊢
    exact terminate_ensures holds nonzero enough
  | true =>
    obtain rfl : text = (low ++ [0x2D]).reverse := by
      rw [spelled, List.reverse_append]
      rfl
    rw [if_pos rfl]
    rw [List.length_reverse, List.length_append, List.length_singleton] at enough ⊢
    apply Prog.Ensures.write_bind ⟨by omega, by omega⟩
    have clear : 0 ∉ low ++ [0x2D] := by
      rw [List.mem_append, not_or]
      exact ⟨nonzero, by decide⟩
    have longer : (low ++ [0x2D]).length = low.length + 1 := List.length_append
    have closed := terminate_ensures (holds.store8_snoc 0x2D) clear (longer ▸ enough)
    rw [longer] at closed
    exact closed

theorem itoaUnsigned_ensures (good : Digits digits) (isNegative : Bool) {uvalue : BitVec 64} {base : BitVec 32}
    (least : 1 < (base.signExtend 64).toNat) (most : (base.signExtend 64).toNat ≤ 16)
    (signed : isNegative = true → uvalue ≠ 0) {text : List (BitVec 8)} {fuel : ℕ} (enough : text.length < fuel)
    (spelled : text = (if isNegative then [0x2D] else []) ++
      numeral (digits.getD · 0) (base.signExtend 64).toNat uvalue.toNat) :
    (itoaUnsigned digits isNegative uvalue buffer base fuel).Ensures m (Span buffer (text.length + 1))
      (Span buffer (text.length + 1)) fun _ m' => m'.Holds buffer (text ++ [0]) := by
  rw [itoaUnsigned]
  split
  · next zero =>
    obtain rfl := zero
    have unsigned : isNegative = false := Bool.eq_false_iff.mpr fun negative => signed negative rfl
    have single : text = [0x30] := by
      rw [spelled, unsigned, ← good.zero]
      rfl
    rw [single]
    exact zeroText_ensures m buffer
  · next nonzero =>
    have positive : uvalue.toNat ≠ 0 := fun zero => nonzero (BitVec.eq_of_toNat_eq zero)
    have clear := numeral_nonzero good (n := uvalue.toNat) least most
    rw [numeral_of_ne_zero positive] at spelled clear
    rw [List.mem_reverse] at clear
    have mapped : ((Nat.digits (base.signExtend 64).toNat uvalue.toNat).map (digits.getD · 0)).length =
        (Nat.digits (base.signExtend 64).toNat uvalue.toNat).length := List.length_map _
    have count : (Nat.digits (base.signExtend 64).toNat uvalue.toNat).length ≤ text.length := by
      rw [spelled, List.length_append, List.length_reverse, mapped]
      exact Nat.le_add_left _ _
    have start : m.Holds buffer [] := trivial
    have loop : (itoaDigits digits buffer (base.signExtend 64) fuel 0 uvalue).Ensures m _ _ _ :=
      itoaDigits_ensures start least (Nat.lt_of_le_of_lt count enough)
    rw [List.length_nil, Nat.add_zero, List.nil_append, Nat.zero_add] at loop
    rw [← mapped] at loop count
    generalize (Nat.digits (base.signExtend 64).toNat uvalue.toNat).map (digits.getD · 0) = low at *
    apply Prog.Ensures.bind _ (loop.mono (fun _ never => never.elim) ?_ fun _ _ post => post)
    · rintro _ m' ⟨rfl, written⟩
      exact signed_ensures isNegative written clear enough spelled
    · exact fun _ => Span.widen le_rfl (by omega)

/-- `itoa` leaves the text with its terminator, and writes at most 21 bytes of the buffer. -/
theorem itoaWith_ensures (good : Digits digits) (value : BitVec 64) {base : BitVec 32} (ten : base = 10 ∨ base = 16)
    {fuel : ℕ} (enough : 21 ≤ fuel) :
    (itoaWith digits value buffer base fuel).Ensures m (Span buffer 21) (Span buffer 21)
      fun _ m' => m'.Holds buffer (itoaText digits value base ++ [0]) := by
  have short : (itoaText digits value base).length ≤ 20 := length_itoaText value ten
  have signed : value.slt 0 = true ↔ value.toInt < 0 := BitVec.slt_iff_toInt_lt
  suffices tight : (itoaWith digits value buffer base fuel).Ensures m
      (Span buffer ((itoaText digits value base).length + 1)) (Span buffer ((itoaText digits value base).length + 1))
      fun _ m' => m'.Holds buffer (itoaText digits value base ++ [0]) by
    apply tight.mono
    · exact fun _ => Span.widen le_rfl (by omega)
    · exact fun _ => Span.widen le_rfl (by omega)
    · exact fun _ _ holds => holds
  rw [itoaWith]
  rcases Decidable.em (base = 10 ∧ value.toInt < 0) with negative | positive
  · obtain ⟨rfl, below⟩ := negative
    have magnitude : (-value).toNat = value.toInt.natAbs := by
      have word := value.isLt
      have pattern := BitVec.toInt_eq_toNat_cond value
      rw [BitVec.toNat_neg]
      split at pattern <;> omega
    have nonzero : -value ≠ 0 := by
      intro zero
      rw [zero] at magnitude
      exact absurd magnitude.symm (Int.natAbs_ne_zero.mpr (Int.ne_of_lt below))
    rw [if_pos ⟨rfl, signed.mpr below⟩]
    apply itoaUnsigned_ensures good true (by decide) (by decide) (fun _ => nonzero) (by omega)
    rw [itoaText, if_pos ⟨rfl, below⟩, magnitude]
    rfl
  · rw [if_neg fun negative => positive ⟨negative.1, signed.mp negative.2⟩]
    rcases ten with rfl | rfl
    · apply itoaUnsigned_ensures good false (by decide) (by decide) (fun never => by cases never) (by omega)
      rw [itoaText, if_neg positive]
      rfl
    · apply itoaUnsigned_ensures good false (by decide) (by decide) (fun never => by cases never) (by omega)
      rw [itoaText, if_neg positive]
      rfl

theorem lib_itoa_ensures (value : BitVec 64) {base : BitVec 32} (ten : base = 10 ∨ base = 16) (given : buffer ≠ 0)
    {fuel : ℕ} (enough : 21 ≤ fuel) :
    (Lib.itoa value buffer base fuel).Ensures m (Span buffer 21) (Span buffer 21)
      fun _ m' => m'.Holds buffer (itoaText Lib.digits value base ++ [0]) := by
  rw [Lib.itoa, if_neg given]
  apply Prog.Ensures.bind _ (itoaWith_ensures lib_digits value ten enough)
  intro _ _ holds
  exact .pure holds

theorem userLibc_itoa_ensures (value : BitVec 64) {base : BitVec 32} (ten : base = 10 ∨ base = 16) {fuel : ℕ}
    (enough : 21 ≤ fuel) :
    (UserLibc.itoa value buffer base fuel).Ensures m (Span buffer 21) (Span buffer 21)
      fun _ m' => m'.Holds buffer (itoaText UserLibc.digits value base ++ [0]) :=
  itoaWith_ensures userLibc_digits value ten enough

end Itoa

end RaryOS.Model
