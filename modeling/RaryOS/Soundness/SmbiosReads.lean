import RaryOS.Core.Program
import RaryOS.Core.Words
import RaryOS.Soundness.SmbiosFields

/-! # Where the SMBIOS scans read

The scans go by the count of the structures and by the zero bytes that they find; the declared length of the table
plays no part. So they stay inside it exactly if the bytes of the table end each of them: the structures on the way
are closed by two zero bytes in a row, and behind them the walk has counted to its end, meets the end marker or a
length below 4, or comes to the string that it looks for.
-/

namespace RaryOS.Soundness

open RaryOS.Core RaryOS.Model SmbiosStructure

/-- The first two zero bytes in a row of these bytes and two zero bytes are the last two. -/
def FirstZeros (s : List (BitVec 8)) : Prop :=
  ∀ k < s.length, ¬((s ++ [0, 0])[k]? = some 0 ∧ (s ++ [0, 0])[k + 1]? = some 0)

/-- A structure with whatever lies behind its strings up to the first two zero bytes in a row. -/
structure ClosedStructure extends SmbiosStructure where
  more : List (BitVec 8)
  closed : ∃ s, terminated strings ++ 0 :: more = s ++ [0, 0] ∧ FirstZeros s

/-- All bytes of the structure. -/
def ClosedStructure.bytes (d : ClosedStructure) : List (BitVec 8) := d.body ++ (terminated d.strings ++ 0 :: d.more)

/-- Here the walk ends: at the end marker, at a length below 4, or at a structure of the type with the field, as far as
to the first character of the string whose number is in it. -/
def Ends (type offset : BitVec 8) (tail : List (BitVec 8)) : Prop :=
  tail.head? = some 127 ∨ (∃ t l rest, tail = t :: l :: rest ∧ l < 4) ∨
    ∃ (d : SmbiosStructure) (c : BitVec 8) (rest : List (BitVec 8)),
      tail = d.body ++ (terminated d.strings ++ c :: rest) ∧ d.type = type ∧ offset.toNat < d.body.length ∧
        d.number offset = d.strings.length + 1 ∧ c ≠ 0

/-- The bytes end the walk over at most `count` structures. -/
def Contained (type offset : BitVec 8) (count : ℕ) (bytes : List (BitVec 8)) : Prop :=
  ∃ (structures : List ClosedStructure) (tail : List (BitVec 8)),
    bytes = structures.flatMap ClosedStructure.bytes ++ tail ∧ structures.length ≤ count ∧
      (structures.length = count ∨ Ends type offset tail)

section Scans

variable {m : Memory} {good : ℕ → Prop} {p q fuel : ℕ}

theorem within_nonzeroAt : (nonzeroAt m p).Within good ↔ good p ∧ (m p = 0 → good (p + 1)) := by
  rw [nonzeroAt, Reading.within_bind, Memory.within_readByte, Memory.value_readByte]
  apply and_congr_right
  intro _
  split
  · next nonzero => exact iff_of_true (Reading.within_pure _) fun zero => absurd zero nonzero
  · next zero =>
    rw [Reading.within_bind, Memory.within_readByte, and_iff_left (Reading.within_pure _)]
    exact (imp_iff_right (not_not.mp zero)).symm

theorem within_zerosAt : (zerosAt m p).Within good ↔ good p ∧ (m p = 0 → good (p + 1)) := by
  rw [zerosAt, Reading.within_bind, Memory.within_readByte, Memory.value_readByte]
  apply and_congr_right
  intro _
  split
  · next zero =>
    rw [Reading.within_bind, Memory.within_readByte, and_iff_left (Reading.within_pure _)]
    exact (imp_iff_right zero).symm
  · next nonzero => exact iff_of_true (Reading.within_pure _) fun zero => absurd zero nonzero

theorem skipStrings_within_of_zeros (first : m p = 0) (second : m (p + 1) = 0) :
    (skipStrings m (fuel + 1) p).Within good ↔ good p ∧ good (p + 1) := by
  have stops : ¬(nonzeroAt m p).value = true := fun goes => (value_nonzeroAt.mp goes).elim (· first) (· second)
  rw [skipStrings, Reading.within_bind, within_nonzeroAt, if_neg stops, and_iff_left (Reading.within_pure _)]
  exact and_congr_right fun _ => imp_iff_right first

theorem skipStrings_within_of_nonzero (goes : m p ≠ 0 ∨ m (p + 1) ≠ 0) :
    (skipStrings m (fuel + 1) p).Within good ↔
      (good p ∧ (m p = 0 → good (p + 1))) ∧ (skipStrings m fuel (p + 1)).Within good := by
  have passes : ¬(zerosAt m p).value = true := fun zeros =>
    goes.elim (· (value_zerosAt.mp zeros).1) (· (value_zerosAt.mp zeros).2)
  rw [skipStrings, Reading.within_bind, if_pos (value_nonzeroAt.mpr goes), Reading.within_bind, if_neg passes,
    within_nonzeroAt, within_zerosAt]
  constructor
  · rintro ⟨start, -, rest⟩
    exact ⟨start, rest⟩
  · rintro ⟨start, rest⟩
    exact ⟨start, start, rest⟩

/-- Two zero bytes at `p`, or not. -/
theorem zeros_or_nonzero (m : Memory) (p : ℕ) : (m p = 0 ∧ m (p + 1) = 0) ∨ (m p ≠ 0 ∨ m (p + 1) ≠ 0) := by
  rcases Decidable.em (m p = 0 ∧ m (p + 1) = 0) with zeros | other
  · exact Or.inl zeros
  · exact Or.inr (Decidable.not_and_iff_not_or_not.mp other)

theorem firstZeros_nil : FirstZeros [] := fun k inside => absurd inside (Nat.not_lt_zero k)

theorem firstZeros_cons {c : BitVec 8} {s : List (BitVec 8)} :
    FirstZeros (c :: s) ↔ ¬(c = 0 ∧ (s ++ [0, 0])[0]? = some 0) ∧ FirstZeros s := by
  constructor
  · intro first
    refine ⟨?_, fun k inside => first (k + 1) (Nat.succ_lt_succ inside)⟩
    rintro ⟨rfl, next⟩
    exact first 0 (Nat.succ_pos _) ⟨rfl, next⟩
  · rintro ⟨here, others⟩ (_ | k) inside
    · rintro ⟨zero, next⟩
      exact here ⟨Option.some.inj zero, next⟩
    · exact others k (Nat.lt_of_succ_lt_succ inside)

theorem first_of_holds {bytes : List (BitVec 8)} (holds : m.Holds p bytes) (nonempty : bytes ≠ []) :
    bytes[0]? = some (m p) := by
  obtain ⟨c, rest, rfl⟩ := List.exists_cons_of_ne_nil nonempty
  exact congrArg some holds.1.symm

/-- The scan for the end of the strings goes up to the two zero bytes. -/
theorem skipStrings_closed {s : List (BitVec 8)} (holds : m.Holds p (s ++ [0, 0])) (first : FirstZeros s)
    (inside : ∀ k < s.length + 2, good (p + k)) (fuel : ℕ) :
    (skipStrings m fuel p).Within good ∧
      ((skipStrings m fuel p).value = none ∨ (skipStrings m fuel p).value = some (p + s.length)) := by
  induction s generalizing p fuel with
  | nil =>
    rcases fuel with _ | fuel
    · exact ⟨Reading.within_pure _, Or.inl rfl⟩
    · obtain ⟨zero, zero', -⟩ := holds
      refine ⟨(skipStrings_within_of_zeros zero zero').mpr ⟨inside 0 (by decide), inside 1 (by decide)⟩, Or.inr ?_⟩
      exact skipStrings_of_zeros zero zero' fuel
  | cons c s ih =>
    rcases fuel with _ | fuel
    · exact ⟨Reading.within_pure _, Or.inl rfl⟩
    · obtain ⟨here, others⟩ := firstZeros_cons.mp first
      rw [List.cons_append] at holds
      obtain ⟨byte, further⟩ := holds
      have next := first_of_holds further (List.append_ne_nil_of_right_ne_nil _ (List.cons_ne_nil _ _))
      have goes : m p ≠ 0 ∨ m (p + 1) ≠ 0 := by
        rw [next, Option.some.injEq] at here
        rw [byte]
        exact Decidable.not_and_iff_not_or_not.mp here
      rw [List.length_cons] at inside
      have later : ∀ k < s.length + 2, good (p + 1 + k) := by
        intro k bound
        rw [Nat.add_assoc, Nat.add_comm 1]
        exact inside (k + 1) (by omega)
      obtain ⟨within, value⟩ := ih further others later fuel
      rw [skipStrings_within_of_nonzero goes, skipStrings_of_nonzero goes, List.length_cons, Nat.add_comm s.length,
        ← Nat.add_assoc]
      exact ⟨⟨⟨inside 0 (by omega), fun _ => inside 1 (by omega)⟩, within⟩, value⟩

/-- Where the scan has found two zero bytes, they are the first and were read. -/
theorem skipStrings_found (value : (skipStrings m fuel p).value = some q)
    (within : (skipStrings m fuel p).Within good) :
    ∃ s, q = p + s.length ∧ m.Holds p (s ++ [0, 0]) ∧ FirstZeros s ∧ good (q + 1) := by
  induction fuel generalizing p with
  | zero => cases value
  | succ fuel ih =>
    rcases zeros_or_nonzero m p with ⟨zero, zero'⟩ | goes
    · rw [skipStrings_of_zeros zero zero'] at value
      rw [skipStrings_within_of_zeros zero zero'] at within
      obtain rfl := Option.some.inj value
      exact ⟨[], rfl, ⟨zero, zero', trivial⟩, firstZeros_nil, within.2⟩
    · rw [skipStrings_of_nonzero goes] at value
      rw [skipStrings_within_of_nonzero goes] at within
      obtain ⟨s, rfl, holds, first, read⟩ := ih value within.2
      have next := first_of_holds holds (List.append_ne_nil_of_right_ne_nil _ (List.cons_ne_nil _ _))
      refine ⟨m p :: s, by rw [List.length_cons]; omega, ⟨rfl, holds⟩, firstZeros_cons.mpr ⟨?_, first⟩, read⟩
      rw [next, Option.some.injEq]
      exact Decidable.not_and_iff_not_or_not.mpr goes

/-- A scan that has not come to an end has read ahead as far as its fuel. -/
theorem skipStrings_running (value : (skipStrings m (fuel + 1) p).value = none)
    (within : (skipStrings m (fuel + 1) p).Within good) : good (p + fuel) := by
  induction fuel generalizing p with
  | zero =>
    rcases zeros_or_nonzero m p with ⟨zero, zero'⟩ | goes
    · exact ((skipStrings_within_of_zeros zero zero').mp within).1
    · exact ((skipStrings_within_of_nonzero goes).mp within).1.1
  | succ fuel ih =>
    rcases zeros_or_nonzero m p with ⟨zero, zero'⟩ | goes
    · rw [skipStrings_of_zeros zero zero'] at value
      cases value
    · rw [skipStrings_of_nonzero goes] at value
      rw [skipStrings_within_of_nonzero goes] at within
      have later := ih value within.2
      rw [Nat.add_comm fuel, ← Nat.add_assoc]
      exact later

/-- The scan over a string goes up to its zero byte. -/
theorem skipText_closed {text : List (BitVec 8)} (holds : m.Holds p (text ++ [0])) (nonzero : 0 ∉ text)
    (inside : ∀ k < text.length + 1, good (p + k)) (fuel : ℕ) :
    (skipText m fuel p).Within good ∧
      ((skipText m fuel p).value = none ∨ (skipText m fuel p).value = some (p + text.length)) := by
  induction text generalizing p fuel with
  | nil =>
    rcases fuel with _ | fuel
    · exact ⟨Reading.within_pure _, Or.inl rfl⟩
    · rw [skipText_of_zero holds.1, Reading.within_bind, Memory.within_readByte]
      exact ⟨⟨inside 0 (by decide), Reading.within_pure _⟩, Or.inr rfl⟩
  | cons c rest ih =>
    rcases fuel with _ | fuel
    · exact ⟨Reading.within_pure _, Or.inl rfl⟩
    · have first := Memory.Holds.first_ne_zero holds nonzero (List.cons_ne_nil c rest)
      rw [List.mem_cons, not_or] at nonzero
      rw [List.length_cons] at inside
      have later : ∀ k < rest.length + 1, good (p + 1 + k) := by
        intro k bound
        rw [Nat.add_assoc, Nat.add_comm 1]
        exact inside (k + 1) (by omega)
      obtain ⟨within, value⟩ := ih holds.2 nonzero.2 later fuel
      rw [skipText_of_nonzero first, Reading.within_bind, Memory.within_readByte, Reading.value_bind, List.length_cons,
        Nat.add_comm rest.length, ← Nat.add_assoc]
      exact ⟨⟨inside 0 (by omega), within⟩, value⟩

theorem skipText_found (value : (skipText m fuel p).value = some q) (within : (skipText m fuel p).Within good) :
    ∃ text, q = p + text.length ∧ 0 ∉ text ∧ m.Holds p (text ++ [0]) ∧ good q := by
  induction fuel generalizing p with
  | zero => cases value
  | succ fuel ih =>
    rcases Decidable.em (m p = 0) with zero | nonzero
    · rw [skipText_of_zero zero] at value within
      rw [Reading.within_bind, Memory.within_readByte] at within
      obtain rfl := Option.some.inj value
      exact ⟨[], rfl, List.not_mem_nil, ⟨zero, trivial⟩, within.1⟩
    · rw [skipText_of_nonzero nonzero] at value within
      rw [Reading.within_bind] at within
      obtain ⟨text, rfl, clear, holds, read⟩ := ih value within.2
      refine ⟨m p :: text, by rw [List.length_cons]; omega, ?_, ⟨rfl, holds⟩, read⟩
      rw [List.mem_cons, not_or]
      exact ⟨Ne.symm nonzero, clear⟩

theorem skipText_running (value : (skipText m (fuel + 1) p).value = none)
    (within : (skipText m (fuel + 1) p).Within good) : good (p + fuel) := by
  induction fuel generalizing p with
  | zero =>
    rw [skipText, Reading.within_bind, Memory.within_readByte] at within
    exact within.1
  | succ fuel ih =>
    rcases Decidable.em (m p = 0) with zero | nonzero
    · rw [skipText_of_zero zero] at value
      cases value
    · rw [skipText_of_nonzero nonzero] at value within
      rw [Reading.within_bind] at within
      have later := ih value within.2
      rw [Nat.add_comm fuel, ← Nat.add_assoc]
      exact later

/-- The search for a string, over strings and the byte behind them: it stops at the string, at a zero byte there, or
at the byte itself if that begins the string. -/
theorem smbiosStringFrom_scan {strings : List (List (BitVec 8))} {c idx n : BitVec 8} {k : ℕ}
    (holds : m.Holds p (terminated strings ++ [c])) (text : ∀ s ∈ strings, s ≠ [] ∧ 0 ∉ s)
    (number : n.toNat + k = idx.toNat) (stop : c = 0 ∨ k ≤ strings.length)
    (inside : ∀ j < (terminated strings).length + 1, good (p + j)) (fuel : ℕ) :
    (smbiosStringFrom m idx fuel n p).Within good ∧ ((smbiosStringFrom m idx fuel n p).value = none ∨
      (smbiosStringFrom m idx fuel n p).value = some (if k < strings.length then
        p + (terminated (strings.take k)).length else if c = 0 then 0 else p + (terminated strings).length)) := by
  induction strings generalizing p n fuel k with
  | nil =>
    rcases fuel with _ | fuel
    · exact ⟨Reading.within_pure _, Or.inl rfl⟩
    · have here : m p = c := holds.1
      have first : good p := inside 0 (Nat.succ_pos _)
      have none : ¬k < ([] : List (List (BitVec 8))).length := Nat.not_lt_zero k
      rw [if_neg none]
      rcases Decidable.em (c = 0) with zero | nonzero
      · rw [smbiosStringFrom_of_zero (here.trans zero), Reading.within_bind, Memory.within_readByte, if_pos zero]
        exact ⟨⟨first, Reading.within_pure _⟩, Or.inr rfl⟩
      · obtain rfl : k = 0 := Nat.le_zero.mp (stop.resolve_left nonzero)
        have same : n = idx := BitVec.eq_of_toNat_eq number
        rw [smbiosStringFrom_of_here (here ▸ nonzero) same, Reading.within_bind, Memory.within_readByte, if_neg nonzero]
        exact ⟨⟨first, Reading.within_pure _⟩, Or.inr rfl⟩
  | cons s rest ih =>
    rcases fuel with _ | fuel
    · exact ⟨Reading.within_pure _, Or.inl rfl⟩
    · obtain ⟨⟨some_, nonzero⟩, others⟩ := List.forall_mem_cons.mp text
      rw [terminated_cons, List.append_assoc, List.cons_append, List.append_cons, Memory.holds_append,
        List.length_append, List.length_singleton, ← Nat.add_assoc] at holds
      rw [terminated_cons, List.length_append, List.length_cons] at inside
      rw [List.length_cons] at stop ⊢
      obtain ⟨here, later⟩ := holds
      have first := here.first_ne_zero nonzero some_
      have start : good p := inside 0 (by omega)
      rcases Decidable.em (n = idx) with same | other
      · obtain rfl : k = 0 := by rw [same] at number; omega
        rw [smbiosStringFrom_of_here first same, Reading.within_bind, Memory.within_readByte, if_pos (Nat.succ_pos _)]
        exact ⟨⟨start, Reading.within_pure _⟩, Or.inr rfl⟩
      · obtain ⟨k, rfl, next⟩ := number_succ number other
        have stop' : c = 0 ∨ k ≤ rest.length := stop.imp_right Nat.le_of_succ_le_succ
        have inside' : ∀ j < (terminated rest).length + 1, good (p + s.length + 1 + j) := by
          intro j bound
          rw [Nat.add_assoc p, Nat.add_assoc p]
          exact inside _ (by omega)
        obtain ⟨read, skipped⟩ := skipText_closed here nonzero (fun j bound => inside j (by omega)) fuel
        rcases skipped with running | found
        · rw [smbiosStringFrom_of_running first other running, Reading.within_bind, Memory.within_readByte,
            Reading.within_bind]
          exact ⟨⟨start, read, Reading.within_pure _⟩, Or.inl rfl⟩
        · obtain ⟨within, value⟩ := ih later others next stop' inside' fuel
          have place : ∀ strings : List (List (BitVec 8)),
              p + s.length + 1 + (terminated strings).length = p + (terminated (s :: strings)).length := by
            intro strings
            rw [terminated_cons, List.length_append, List.length_cons]
            omega
          rw [smbiosStringFrom_of_skipped first other found, Reading.within_bind, Memory.within_readByte,
            Reading.within_bind, List.take_succ_cons, ← place, ← place]
          simp only [Nat.add_lt_add_iff_right]
          exact ⟨⟨start, read, within⟩, value⟩

/-- Where the search has found its string, the strings before it lie in front of it, and its first byte was read. -/
theorem smbiosStringFrom_found {idx n : BitVec 8} (value : (smbiosStringFrom m idx fuel n p).value = some q)
    (within : (smbiosStringFrom m idx fuel n p).Within good) (some_ : q ≠ 0) (least : n.toNat ≤ idx.toNat) :
    ∃ (strings : List (List (BitVec 8))) (c : BitVec 8), (∀ s ∈ strings, s ≠ [] ∧ 0 ∉ s) ∧
      n.toNat + strings.length = idx.toNat ∧ c ≠ 0 ∧ m.Holds p (terminated strings ++ [c]) ∧
        q = p + (terminated strings).length ∧ good q := by
  induction fuel generalizing p n with
  | zero => cases value
  | succ fuel ih =>
    rcases Decidable.em (m p = 0) with zero | nonzero
    · rw [smbiosStringFrom_of_zero zero] at value
      exact absurd (Option.some.inj value).symm some_
    · rcases Decidable.em (n = idx) with same | other
      · rw [smbiosStringFrom_of_here nonzero same] at value within
        rw [Reading.within_bind, Memory.within_readByte] at within
        obtain rfl := Option.some.inj value
        exact ⟨[], m p, List.forall_mem_nil _, by rw [same]; rfl, nonzero, ⟨rfl, trivial⟩, rfl, within.1⟩
      · cases skipped : (skipText m fuel p).value with
        | none =>
          rw [smbiosStringFrom_of_running nonzero other skipped] at value
          cases value
        | some p' =>
          rw [smbiosStringFrom_of_skipped nonzero other skipped] at value within
          rw [Reading.within_bind, Reading.within_bind] at within
          obtain ⟨text, rfl, clear, holds, -⟩ := skipText_found skipped within.2.1
          have next : (n + 1).toNat = n.toNat + 1 := by bv_omega
          have least' : (n + 1).toNat ≤ idx.toNat := by bv_omega
          obtain ⟨strings, c, good', count, first, later, rfl, read⟩ := ih value within.2.2 least'
          have nonempty : text ≠ [] := by
            rintro rfl
            exact nonzero holds.1
          have place : p + (text.length + 1) + (terminated strings).length =
              p + (terminated (text :: strings)).length := by
            rw [terminated_cons, List.length_append, List.length_cons]
            omega
          refine ⟨text :: strings, c, List.forall_mem_cons.mpr ⟨⟨nonempty, clear⟩, good'⟩, ?_, first, ?_, place, read⟩
          · rw [List.length_cons]
            omega
          · rw [terminated_cons, List.append_assoc, List.cons_append, List.append_cons, Memory.holds_append,
              List.length_append, List.length_singleton]
            exact ⟨holds, later⟩

theorem smbiosStringFrom_running {idx n : BitVec 8} (value : (smbiosStringFrom m idx (fuel + 1) n p).value = none)
    (within : (smbiosStringFrom m idx (fuel + 1) n p).Within good) : ∃ place, p + fuel ≤ place + 1 ∧ good place := by
  induction fuel generalizing p n with
  | zero =>
    rw [smbiosStringFrom, Reading.within_bind, Memory.within_readByte] at within
    exact ⟨p, Nat.le_succ p, within.1⟩
  | succ fuel ih =>
    rcases Decidable.em (m p = 0) with zero | nonzero
    · rw [smbiosStringFrom_of_zero zero] at value
      cases value
    · rcases Decidable.em (n = idx) with same | other
      · rw [smbiosStringFrom_of_here nonzero same] at value
        cases value
      · cases skipped : (skipText m (fuel + 1) p).value with
        | none =>
          rw [smbiosStringFrom_of_running nonzero other skipped, Reading.within_bind, Reading.within_bind] at within
          exact ⟨p + fuel, le_rfl, skipText_running skipped within.2.1⟩
        | some p' =>
          rw [smbiosStringFrom_of_skipped nonzero other skipped] at value within
          rw [Reading.within_bind, Reading.within_bind] at within
          obtain ⟨text, rfl, -⟩ := skipText_found skipped within.2.1
          obtain ⟨place, far, read⟩ := ih value within.2.2
          exact ⟨place, by omega, read⟩

/-- Bytes before two zero bytes begin with strings up to an empty one. -/
theorem exists_strings (s : List (BitVec 8)) :
    ∃ (strings : List (List (BitVec 8))) (more : List (BitVec 8)), (∀ t ∈ strings, t ≠ [] ∧ 0 ∉ t) ∧
      terminated strings ++ 0 :: more = s ++ [0, 0] := by
  induction length : s.length using Nat.strong_induction_on generalizing s with
  | _ n ih =>
    have split : s.takeWhile (· != 0) ++ s.dropWhile (· != 0) = s := List.takeWhile_append_dropWhile
    have clear : 0 ∉ s.takeWhile (· != 0) := by
      intro member
      exact absurd (List.mem_takeWhile_imp member) (by decide)
    have stops : ∀ c tail, s.dropWhile (· != 0) = c :: tail → c = 0 := by
      intro c tail stopped
      have zero := stops_at stopped
      rwa [bne_eq_false_iff_eq] at zero
    rw [← split] at length ⊢
    generalize s.takeWhile (· != 0) = text at *
    generalize s.dropWhile (· != 0) = rest at *
    rw [List.length_append] at length
    rcases Decidable.em (text = []) with rfl | nonempty
    · rcases rest with _ | ⟨c, tail⟩
      · exact ⟨[], [0], List.forall_mem_nil _, rfl⟩
      · obtain rfl := stops c tail rfl
        exact ⟨[], tail ++ [0, 0], List.forall_mem_nil _, rfl⟩
    · rcases rest with _ | ⟨c, tail⟩
      · refine ⟨[text], [], List.forall_mem_singleton.mpr ⟨nonempty, clear⟩, ?_⟩
        rw [terminated_cons, List.append_assoc, List.append_assoc]
        rfl
      · obtain rfl := stops c tail rfl
        rw [List.length_cons] at length
        obtain ⟨strings, more, good, parts⟩ := ih tail.length (by omega) tail rfl
        refine ⟨text :: strings, more, List.forall_mem_cons.mpr ⟨⟨nonempty, clear⟩, good⟩, ?_⟩
        rw [terminated_cons, List.append_assoc, List.cons_append, parts, List.append_assoc, List.cons_append]

end Scans

section Walk

variable {m : Memory} {good : ℕ → Prop} {p q fuel left : ℕ} {type offset : BitVec 8} {d : SmbiosStructure}

/-- The string is looked for. -/
def Scans (d : SmbiosStructure) (type offset : BitVec 8) : Prop :=
  d.type = type ∧ offset.toNat < d.body.length ∧ d.number offset ≠ 0

instance (d : SmbiosStructure) (type offset : BitVec 8) : Decidable (Scans d type offset) :=
  inferInstanceAs (Decidable (_ ∧ _))

/-- The search for the string of a structure. -/
def stringScan (m : Memory) (d : SmbiosStructure) (offset : BitVec 8) (fuel p : ℕ) : Reading (Option ℕ) :=
  smbiosStringFrom m (d.body.getD offset.toNat 0) fuel 1 (p + d.body.length)

/-- The field is inside the formatted part, and holds the number. -/
theorem Scans.field (body : m.Holds p d.body) (scans : Scans d type offset) :
    offset < m (p + 1) ∧ m (p + offset.toNat) = d.body.getD offset.toNat 0 ∧ d.body.getD offset.toNat 0 ≠ 0 := by
  obtain ⟨-, inside, number⟩ := scans
  refine ⟨by rwa [BitVec.lt_def, body_length body], ?_, fun zero => number ?_⟩
  · rw [(Memory.holds_iff _).mp body _ inside, List.getD_eq_getElem _ _ inside]
  · rw [SmbiosStructure.number, zero]
    rfl

theorem structureField_value (body : m.Holds p d.body) (scans : Scans d type offset) :
    (structureField m type offset fuel p).value = (stringScan m d offset fuel p).value := by
  obtain ⟨long, idx, counted⟩ := scans.field body
  rw [structureField, Reading.value_bind, Memory.value_readByte, body_type body, if_pos scans.1, Reading.value_bind,
    Memory.value_readByte, if_pos long, Reading.value_bind, Memory.value_readByte, smbiosString, idx, if_neg counted,
    Reading.value_bind, Memory.value_readByte, body_length body]
  rfl

theorem structureField_within (body : m.Holds p d.body) (scans : Scans d type offset) :
    (structureField m type offset fuel p).Within good ↔
      (good p ∧ good (p + 1) ∧ good (p + offset.toNat)) ∧ (stringScan m d offset fuel p).Within good := by
  obtain ⟨long, idx, counted⟩ := scans.field body
  rw [structureField, Reading.within_bind, Memory.value_readByte, Memory.within_readByte, body_type body,
    if_pos scans.1, Reading.within_bind, Memory.value_readByte, Memory.within_readByte, if_pos long,
    Reading.within_bind, Memory.value_readByte, Memory.within_readByte, smbiosString, idx, if_neg counted,
    Reading.within_bind, Memory.value_readByte, Memory.within_readByte, body_length body]
  constructor
  · rintro ⟨first, second, field, -, scan⟩
    exact ⟨⟨first, second, field⟩, scan⟩
  · rintro ⟨⟨first, second, field⟩, scan⟩
    exact ⟨first, second, field, second, scan⟩

/-- No string is looked for, and only the formatted part is read. -/
theorem structureField_passes (good : ℕ → Prop) (body : m.Holds p d.body) (passes : ¬Scans d type offset) :
    (structureField m type offset fuel p).value = some 0 ∧
      ((∀ k < d.body.length, good (p + k)) → (structureField m type offset fuel p).Within good) := by
  have long : offset < m (p + 1) ↔ offset.toNat < d.body.length := by rw [BitVec.lt_def, body_length body]
  have two : 1 < d.body.length := Nat.succ_lt_succ (Nat.succ_pos _)
  rw [structureField, Reading.value_bind, Reading.within_bind, Memory.value_readByte, Memory.within_readByte,
    body_type body]
  split
  · next same =>
    rw [Reading.value_bind, Reading.within_bind, Memory.value_readByte, Memory.within_readByte]
    split
    · next inside =>
      have zero : m (p + offset.toNat) = 0 := by
        rw [(Memory.holds_iff _).mp body _ (long.mp inside), ← List.getD_eq_getElem _ 0 (long.mp inside)]
        apply BitVec.eq_of_toNat_eq
        by_contra number
        exact passes ⟨same, long.mp inside, number⟩
      rw [Reading.value_bind, Reading.within_bind, Memory.value_readByte, Memory.within_readByte, smbiosString, zero,
        if_pos rfl]
      exact ⟨rfl, fun read => ⟨read 0 (by omega), read 1 two, read _ (long.mp inside), Reading.within_pure _⟩⟩
    · exact ⟨rfl, fun read => ⟨read 0 (by omega), read 1 two, Reading.within_pure _⟩⟩
  · exact ⟨rfl, fun read => ⟨read 0 (by omega), Reading.within_pure _⟩⟩

/-- One round over a structure: the field, and if it gives nothing the strings and the rounds that are left. -/
theorem findFieldFrom_within (body : m.Holds p d.body) :
    (findFieldFrom m type offset fuel (left + 1) p).Within good ↔
      (good p ∧ good (p + 1)) ∧ (structureField m type offset fuel p).Within good ∧
        ((structureField m type offset fuel p).value = some 0 →
          (skipStrings m fuel (p + d.body.length)).Within good ∧
            ∀ q, (skipStrings m fuel (p + d.body.length)).value = some q →
              (findFieldFrom m type offset fuel left (q + 2)).Within good) := by
  rw [findFieldFrom, Reading.within_bind, Memory.within_readByte, Memory.value_readByte, body_type body,
    if_neg d.notEnd, Reading.within_bind, Memory.within_readByte, Memory.value_readByte, if_neg (body_long body),
    Reading.within_bind, and_assoc]
  apply and_congr_right
  intro first
  apply and_congr_right
  intro second
  apply and_congr_right
  intro _
  cases field : (structureField m type offset fuel p).value with
  | none =>
    refine iff_of_true (Reading.within_pure _) ?_
    intro never
    cases never
  | some s =>
    dsimp only
    split
    · next found =>
      refine iff_of_true (Reading.within_pure _) ?_
      intro zero
      exact absurd (Option.some.inj zero) found
    · next zero =>
      rw [not_not.mp zero, imp_iff_right rfl, Reading.within_bind, Memory.within_readByte, Memory.value_readByte,
        body_length body, Reading.within_bind, and_iff_right second]
      apply and_congr_right
      intro _
      cases skipped : (skipStrings m fuel (p + d.body.length)).value with
      | none =>
        refine iff_of_true (Reading.within_pure _) ?_
        intro q never
        cases never
      | some q =>
        constructor
        · rintro within _ ⟨rfl⟩
          exact within
        · intro within
          exact within q rfl

/-- The search behind a formatted part stays inside the strings with the byte behind them, if it ends there. -/
theorem stringScan_within {c : BitVec 8} (strings : m.Holds (p + d.body.length) (terminated d.strings ++ [c]))
    (positive : d.number offset ≠ 0) (stop : c = 0 ∨ d.number offset = d.strings.length + 1)
    (inside : ∀ j < (terminated d.strings).length + 1, good (p + d.body.length + j)) :
    (stringScan m d offset fuel p).Within good := by
  have number : (1 : BitVec 8).toNat + (d.number offset - 1) = (d.body.getD offset.toNat 0).toNat :=
    Nat.add_sub_cancel' (Nat.pos_of_ne_zero positive)
  exact (smbiosStringFrom_scan strings d.text number (stop.imp_right fun last => by omega) inside fuel).1

/-- A string that begins behind the others is found. -/
theorem stringScan_ne_zero {c : BitVec 8} (strings : m.Holds (p + d.body.length) (terminated d.strings ++ [c]))
    (last : d.number offset = d.strings.length + 1) (first : c ≠ 0) :
    (stringScan m d offset fuel p).value ≠ some 0 := by
  have number : (1 : BitVec 8).toNat + d.strings.length = (d.body.getD offset.toNat 0).toNat :=
    (Nat.add_comm ..).trans last.symm
  obtain ⟨-, value⟩ : (stringScan m d offset fuel p).Within (fun _ => True) ∧ _ :=
    smbiosStringFrom_scan strings d.text number (Or.inr le_rfl) (fun _ _ => trivial) fuel
  rw [if_neg (Nat.lt_irrefl _), if_neg first] at value
  have positive : 0 < d.body.length := Nat.succ_pos _
  rw [stringScan]
  rcases value with running | found
  · rw [running]
    exact (Option.some_ne_none 0).symm
  · rw [found, ne_eq, Option.some.injEq]
    omega

/-- A closed structure is read whole at most. -/
theorem ClosedStructure.round {d : ClosedStructure} (holds : m.Holds p d.bytes)
    (inside : ∀ k < d.bytes.length, good (p + k))
    (rest : (findFieldFrom m type offset fuel left (p + d.bytes.length)).Within good) :
    (findFieldFrom m type offset fuel (left + 1) p).Within good := by
  have length : d.bytes.length = d.body.length + (terminated d.strings ++ 0 :: d.more).length := List.length_append
  rw [ClosedStructure.bytes, Memory.holds_append] at holds
  obtain ⟨body, behind⟩ := holds
  have two : 1 < d.body.length := Nat.succ_lt_succ (Nat.succ_pos _)
  have inBody : ∀ k < d.body.length, good (p + k) := fun k bound => inside k (by omega)
  have later : ∀ k < (terminated d.strings ++ 0 :: d.more).length, good (p + d.body.length + k) := by
    intro k bound
    rw [Nat.add_assoc]
    exact inside _ (by omega)
  rw [findFieldFrom_within body]
  refine ⟨⟨inside 0 (by omega), inside 1 (by omega)⟩, ?_, fun _ => ?_⟩
  · rcases Decidable.em (Scans d.toSmbiosStructure type offset) with scans | passes
    · rw [structureField_within body scans]
      rw [List.append_cons, Memory.holds_append] at behind
      refine ⟨⟨inBody 0 (by omega), inBody 1 two, inBody _ scans.2.1⟩, ?_⟩
      refine stringScan_within behind.1 scans.2.2 (Or.inl rfl) fun j bound => later j ?_
      rw [List.length_append, List.length_cons]
      omega
    · exact (structureField_passes good body passes).2 inBody
  · obtain ⟨s, parts, first⟩ := d.closed
    rw [parts] at behind later length
    have two : (s ++ [0, 0]).length = s.length + 2 := List.length_append
    rw [two] at later length
    obtain ⟨within, value⟩ := skipStrings_closed behind first later fuel
    refine ⟨within, fun q found => ?_⟩
    rw [found] at value
    obtain rfl := Option.some.inj (value.resolve_left (Option.some_ne_none q))
    rw [Nat.add_assoc p, Nat.add_assoc p, Nat.add_assoc, ← length]
    exact rest

/-- The ends of the walk. -/
theorem Ends.round {tail : List (BitVec 8)} (ends : Ends type offset tail) (holds : m.Holds p tail)
    (inside : ∀ k < tail.length, good (p + k)) : (findFieldFrom m type offset fuel (left + 1) p).Within good := by
  rcases ends with marker | ⟨t, l, rest, rfl, short⟩ | ⟨d, c, rest, rfl, same, field, number, first⟩
  · obtain ⟨rest, rfl⟩ := List.head?_eq_some_iff.mp marker
    have here : m p = 127 := holds.1
    rw [findFieldFrom, Reading.within_bind, Memory.within_readByte, Memory.value_readByte, if_pos here]
    exact ⟨inside 0 (Nat.succ_pos _), Reading.within_pure _⟩
  · have here : m (p + 1) = l := holds.2.1
    rw [findFieldFrom, Reading.within_bind, Memory.within_readByte, Memory.value_readByte]
    refine ⟨inside 0 (Nat.succ_pos _), ?_⟩
    split
    · exact Reading.within_pure _
    · rw [Reading.within_bind, Memory.within_readByte, Memory.value_readByte, here, if_pos short]
      exact ⟨inside 1 (Nat.succ_lt_succ (Nat.succ_pos _)), Reading.within_pure _⟩
  · rw [Memory.holds_append, List.append_cons, Memory.holds_append] at holds
    rw [List.length_append, List.length_append, List.length_cons] at inside
    obtain ⟨body, strings, -⟩ := holds
    have two : 1 < d.body.length := Nat.succ_lt_succ (Nat.succ_pos _)
    have scans : Scans d type offset := ⟨same, field, by omega⟩
    rw [findFieldFrom_within body, structureField_within body scans, structureField_value body scans]
    refine ⟨⟨inside 0 (by omega), inside 1 (by omega)⟩,
      ⟨⟨inside 0 (by omega), inside 1 (by omega), inside _ (by omega)⟩, ?_⟩,
      fun none => absurd none (stringScan_ne_zero strings number first)⟩
    refine stringScan_within strings scans.2.2 (Or.inr number) fun j bound => ?_
    rw [Nat.add_assoc]
    exact inside _ (by omega)

/-- The walk over bytes that end it reads only these. -/
theorem within_of_contained {bytes : List (BitVec 8)} (contained : Contained type offset left bytes)
    (holds : m.Holds p bytes) (inside : ∀ k < bytes.length, good (p + k)) :
    (findFieldFrom m type offset fuel left p).Within good := by
  obtain ⟨structures, tail, rfl, count, last⟩ := contained
  induction structures generalizing p left with
  | nil =>
    rcases left with _ | left
    · exact Reading.within_pure _
    · exact (last.resolve_left (Nat.succ_ne_zero left).symm).round holds inside
  | cons d rest ih =>
    obtain ⟨left, rfl⟩ := Nat.exists_eq_add_one_of_ne_zero (Nat.ne_zero_of_lt count)
    rw [List.flatMap_cons, List.append_assoc] at holds inside
    rw [Memory.holds_append] at holds
    rw [List.length_append] at inside
    have later : ∀ k < (rest.flatMap ClosedStructure.bytes ++ tail).length, good (p + d.bytes.length + k) := by
      intro k bound
      rw [Nat.add_assoc]
      exact inside _ (by omega)
    refine ClosedStructure.round holds.1 (fun k bound => inside k (by omega)) ?_
    exact ih holds.2 later (Nat.le_of_succ_le_succ count) (last.imp_left Nat.succ.inj)

/-- A formatted part in memory, for a type that is not the end marker and a length that is at least 4. -/
theorem exists_body (notEnd : m p ≠ 127) (long : ¬m (p + 1) < 4) :
    ∃ d : SmbiosStructure, m.Holds p d.body := by
  have least : 4 ≤ (m (p + 1)).toNat := Nat.le_of_not_lt long
  have byte := (m (p + 1)).isLt
  have count : ((List.range ((m (p + 1)).toNat - 2)).map fun k => m (p + 2 + k)).length = (m (p + 1)).toNat - 2 := by
    rw [List.length_map, List.length_range]
  refine ⟨{ type := m p, rest := (List.range ((m (p + 1)).toNat - 2)).map fun k => m (p + 2 + k), strings := [],
            notEnd := notEnd, atLeast := by omega, atMost := by omega, text := List.forall_mem_nil _ },
    rfl, ?_, ?_⟩
  · rw [count, Nat.sub_add_cancel (by omega), BitVec.ofNat_toNat, BitVec.setWidth_eq]
  · rw [Memory.holds_iff]
    intro k inside
    rw [List.getElem_map, List.getElem_range]

/-- A search for a string that stays inside the bytes has found it there, or has found that there is none. -/
theorem ends_of_scan {bytes : List (BitVec 8)} (holds : m.Holds p bytes) (body : m.Holds p d.body)
    (scans : Scans d type offset) (enough : p + bytes.length + 1 ≤ fuel)
    (within : (stringScan m d offset (fuel + 1) p).Within (· < p + bytes.length)) :
    (stringScan m d offset (fuel + 1) p).value = some 0 ∨ Ends type offset bytes := by
  obtain ⟨same, field, number⟩ := scans
  rw [stringScan] at within ⊢
  cases value : (smbiosStringFrom m (d.body.getD offset.toNat 0) (fuel + 1) 1 (p + d.body.length)).value with
  | none =>
    obtain ⟨place, far, read⟩ := smbiosStringFrom_running value within
    omega
  | some q =>
    rcases Decidable.em (q = 0) with rfl | found
    · exact Or.inl rfl
    · have least : (1 : BitVec 8).toNat ≤ (d.body.getD offset.toNat 0).toNat := Nat.pos_of_ne_zero number
      obtain ⟨strings, c, text, count, first, behind, rfl, read⟩ := smbiosStringFrom_found value within found least
      have here : m.Holds p (d.body ++ (terminated strings ++ [c])) := (Memory.holds_append _ _).mpr ⟨body, behind⟩
      have fits : (d.body ++ (terminated strings ++ [c])).length ≤ bytes.length := by
        rw [List.length_append, List.length_append, List.length_singleton]
        omega
      obtain ⟨rest, rfl, -⟩ := holds.exists_rest here fits
      refine Or.inr (Or.inr (Or.inr ⟨{ d with strings := strings, text := text }, c, rest, ?_, same, field, ?_, first⟩))
      · rw [List.append_assoc, List.append_assoc]
        rfl
      · exact count.symm.trans (Nat.add_comm ..)

/-- A round that stays inside the bytes ends at their first two, or these begin a formatted part. -/
theorem ends_or_body {bytes : List (BitVec 8)} (holds : m.Holds p bytes)
    (within : (findFieldFrom m type offset fuel (left + 1) p).Within (· < p + bytes.length)) :
    Ends type offset bytes ∨ ∃ d : SmbiosStructure, m.Holds p d.body := by
  rw [findFieldFrom, Reading.within_bind, Memory.within_readByte, Memory.value_readByte] at within
  obtain ⟨first, within⟩ := within
  obtain ⟨t, bytes', rfl⟩ := List.exists_cons_of_ne_nil (show bytes ≠ [] by rintro rfl; exact Nat.lt_irrefl _ first)
  have type' : m p = t := holds.1
  split at within
  · next marker =>
    refine Or.inl (Or.inl ?_)
    rw [List.head?_cons, ← type', marker]
  · next notEnd =>
    rw [Reading.within_bind, Memory.within_readByte, Memory.value_readByte] at within
    obtain ⟨second, within⟩ := within
    obtain ⟨l, rest, rfl⟩ := List.exists_cons_of_ne_nil
      (show bytes' ≠ [] by rintro rfl; exact Nat.lt_irrefl _ second)
    have length' : m (p + 1) = l := holds.2.1
    split at within
    · next short => exact Or.inl (Or.inr (Or.inl ⟨t, l, rest, rfl, length' ▸ short⟩))
    · next long => exact Or.inr (exists_body notEnd long)

/-- A round that stays inside the bytes comes to an end of the walk in them, or looks for no string or a missing one. -/
theorem ends_or_nothing {bytes : List (BitVec 8)} (holds : m.Holds p bytes) (body : m.Holds p d.body)
    (enough : p + bytes.length + 1 ≤ fuel)
    (within : (structureField m type offset (fuel + 1) p).Within (· < p + bytes.length)) :
    Ends type offset bytes ∨ (structureField m type offset (fuel + 1) p).value = some 0 := by
  rcases Decidable.em (Scans d type offset) with scans | passes
  · rw [structureField_value body scans]
    rw [structureField_within body scans] at within
    exact (ends_of_scan holds body scans enough within.2).symm
  · exact Or.inr (structureField_passes (fun _ => True) body passes).1

/-- Where the end of the strings was found inside the bytes, these begin with a closed structure. -/
theorem exists_closed {bytes : List (BitVec 8)} (holds : m.Holds p bytes) (body : m.Holds p d.body)
    (skipped : (skipStrings m fuel (p + d.body.length)).value = some q)
    (within : (skipStrings m fuel (p + d.body.length)).Within (· < p + bytes.length)) :
    ∃ (e : ClosedStructure) (rest : List (BitVec 8)), bytes = e.bytes ++ rest ∧
      m.Holds (p + e.bytes.length) rest ∧ q + 2 = p + e.bytes.length := by
  obtain ⟨s, rfl, behind, zeros, read⟩ := skipStrings_found skipped within
  obtain ⟨strings, more, text, parts⟩ := exists_strings s
  let e : ClosedStructure :=
    { d with strings := strings, text := text, more := more, closed := ⟨s, parts, zeros⟩ }
  have whole : e.bytes = d.body ++ (s ++ [0, 0]) := congrArg (d.body ++ ·) parts
  have length : e.bytes.length = d.body.length + s.length + 2 := by
    rw [whole, List.length_append, List.length_append, Nat.add_assoc]
    rfl
  have here : m.Holds p e.bytes := by
    rw [whole, Memory.holds_append]
    exact ⟨body, behind⟩
  obtain ⟨rest, split, holds'⟩ := holds.exists_rest here (by omega)
  exact ⟨e, rest, split, holds', by omega⟩

/-- A walk that stays inside its bytes has been ended by them. -/
theorem contained_of_within {bytes : List (BitVec 8)} (holds : m.Holds p bytes)
    (enough : p + bytes.length + 2 ≤ fuel)
    (within : (findFieldFrom m type offset fuel left p).Within (· < p + bytes.length)) :
    Contained type offset left bytes := by
  induction left generalizing p bytes with
  | zero => exact ⟨[], bytes, rfl, le_rfl, Or.inl rfl⟩
  | succ left ih =>
    obtain ⟨fuel, rfl⟩ : ∃ n, fuel = n + 1 := ⟨fuel - 1, by omega⟩
    have stopped : Ends type offset bytes → Contained type offset (left + 1) bytes :=
      fun ends => ⟨[], bytes, rfl, Nat.zero_le _, Or.inr ends⟩
    rcases ends_or_body holds within with ends | ⟨d, body⟩
    · exact stopped ends
    rw [findFieldFrom_within body] at within
    obtain ⟨-, field, later⟩ := within
    rcases ends_or_nothing holds body (by omega) field with ends | nothing
    · exact stopped ends
    obtain ⟨skip, next⟩ := later nothing
    cases skipped : (skipStrings m (fuel + 1) (p + d.body.length)).value with
    | none =>
      have far := skipStrings_running skipped skip
      omega
    | some q =>
      have within' := next q skipped
      obtain ⟨e, rest, rfl, holds', place⟩ := exists_closed holds body skipped skip
      rw [List.length_append] at enough within'
      rw [place, ← Nat.add_assoc] at within'
      obtain ⟨structures, tail, rfl, count, last⟩ := ih holds' (by omega) within'
      exact ⟨e :: structures, tail, by rw [List.flatMap_cons, List.append_assoc], Nat.succ_le_succ count,
        last.imp_left (congrArg Nat.succ)⟩

/-- The bytes from an address on. -/
def bytesAt (m : Memory) (place length : ℕ) : List (BitVec 8) := (List.range length).map fun k => m (place + k)

/-- For every entry point that `smbios_init` accepts, every memory, type and offset: `find_field` reads only bytes
inside the declared length of the table if and only if these bytes end its walk. -/
theorem smbios_reads_inside_iff (m : Memory) {entry : ℕ}
    (accepted : (List.range' 0xF0000 0x1000 16).find? (SmbiosEp.Accepted m ·) = some entry) (type offset : BitVec 8) :
    (∀ fuel, (findField m (smbiosInit m) type offset fuel).Within
      (Span (SmbiosEp.read m entry).tableAddress (SmbiosEp.read m entry).tableLength)) ↔
      Contained type offset (SmbiosEp.read m entry).numStructures
        (bytesAt m (SmbiosEp.read m entry).tableAddress (SmbiosEp.read m entry).tableLength) := by
  have init : smbiosInit m = ⟨(SmbiosEp.read m entry).tableAddress, (SmbiosEp.read m entry).numStructures⟩ := by
    rw [smbiosInit, accepted]
  have somewhere : (SmbiosEp.read m entry).tableAddress ≠ 0 := by
    have checked := List.find?_some accepted
    rw [decide_eq_true_iff] at checked
    have high := checked.2.2.2
    omega
  rw [init]
  generalize (SmbiosEp.read m entry).tableAddress = table at *
  generalize (SmbiosEp.read m entry).tableLength = length
  have count : (bytesAt m table length).length = length := (List.length_map _).trans List.length_range
  have holds : m.Holds table (bytesAt m table length) := by
    rw [Memory.holds_iff]
    intro k inside
    simp only [bytesAt, List.getElem_map, List.getElem_range]
  simp only [findField, if_neg somewhere]
  constructor
  · intro inside
    apply contained_of_within holds le_rfl
    rw [count]
    exact fun place member => (inside _ place member).2
  · intro contained fuel
    refine within_of_contained contained holds fun k bound => ?_
    rw [count] at bound
    exact ⟨Nat.le_add_right _ _, Nat.add_lt_add_left bound _⟩

end Walk

/-- An entry point at 0xF0000 for one structure at 0x2000, which has no strings and takes up six bytes. -/
def smbiosMemory (checksum tableLength : BitVec 8) : Memory := fun address =>
  if 0xF0000 ≤ address then
    [0x5F, 0x53, 0x4D, 0x5F, checksum, 0x1F, 0, 0, 0, 0, 0, 0, 0, 0, 0, 0, 0, 0, 0, 0, 0, 0, tableLength, 0,
      0, 0x20, 0, 0, 1, 0].getD (address - 0xF0000) 0
  else [1, 4].getD (address - 0x2000) 0

theorem smbios_reads_inside_iff_sample :
    (SmbiosEp.read (smbiosMemory 0x5C 6) 0xF0000).tableLength = 6 ∧
      ∀ fuel, (findField (smbiosMemory 0x5C 6) (smbiosInit (smbiosMemory 0x5C 6)) 2 4 fuel).Within (Span 0x2000 6) := by
  refine ⟨by decide, ?_⟩
  have accepted : (List.range' 0xF0000 0x1000 16).find? (SmbiosEp.Accepted (smbiosMemory 0x5C 6) ·) = some 0xF0000 := by
    decide +kernel
  apply (smbios_reads_inside_iff (smbiosMemory 0x5C 6) accepted 2 4).mpr
  refine ⟨[{ type := 1, rest := [0, 0], strings := [], notEnd := by decide, atLeast := by decide, atMost := by decide,
             text := List.forall_mem_nil _, more := [0], closed := ⟨[], rfl, firstZeros_nil⟩ }], [], ?_, ?_, Or.inl ?_⟩
  · decide
  · decide
  · decide

/-- The declared length leaves out the last zero byte, which is read all the same. -/
theorem smbios_reads_inside_fails :
    (List.range' 0xF0000 0x1000 16).find? (SmbiosEp.Accepted (smbiosMemory 0x5D 5) ·) = some 0xF0000 ∧
      (SmbiosEp.read (smbiosMemory 0x5D 5) 0xF0000).tableAddress = 0x2000 ∧
      (SmbiosEp.read (smbiosMemory 0x5D 5) 0xF0000).tableLength = 5 ∧
      ¬∀ fuel, (findField (smbiosMemory 0x5D 5) (smbiosInit (smbiosMemory 0x5D 5)) 2 4 fuel).Within
        (Span 0x2000 5) := by
  refine ⟨by decide +kernel, by decide, by decide, fun inside => ?_⟩
  have past : 0x2005 ∈ (findField (smbiosMemory 0x5D 5) (smbiosInit (smbiosMemory 0x5D 5)) 2 4 2).reads := by
    decide +kernel
  exact absurd (inside 2 _ past).2 (Nat.lt_irrefl _)

end RaryOS.Soundness
