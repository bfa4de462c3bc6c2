import RaryOS.Model.Acpi

/-! # The search for `_S5_`, in terms of the bytes of the table

`packageAt` is the opcode that the search comes to after a name, `Accepted` says that the package there ends the
search, and `Overrun` that a byte at or past the end is read for it. Every function of the search gets two facts:
its value, and whether it stays within the table.
-/

namespace RaryOS.Model

open RaryOS.Core

/-- The name, with a byte after it. -/
def Named (p : Memory) (length i : ℕ) : Prop := i + 4 < length ∧ p.Holds i s5Name

instance (p : Memory) (length i : ℕ) : Decidable (Named p length i) := inferInstanceAs (Decidable (_ ∧ _))

/-- Behind the name and a name opcode. -/
def afterName (p : Memory) (i : ℕ) : ℕ := if p (i + 4) = 0x08 then i + 5 else i + 4

/-- The package opcode that the search comes to after the name at `i`: the next byte, or the first of the 16
bytes after the header of a method. -/
def packageAt (p : Memory) (length i : ℕ) : Option ℕ :=
  let off := afterName p i
  (if off < length ∧ p off = 0x14 then List.range' ((off + pkglenSize (p (off + 1)) + 2) % 2 ^ 32) 16
    else [off]).find? fun off => off < length ∧ p off = 0x12

/-- Where the element count of a package is. -/
def countAt (p : Memory) (off : ℕ) : ℕ := (off + 1 + pkglenSize (p (off + 1))) % 2 ^ 32

/-- The count is inside and at least two. -/
def HasCount (p : Memory) (length off : ℕ) : Prop := countAt p off < length ∧ 2 ≤ p (countAt p off)

instance (p : Memory) (length off : ℕ) : Decidable (HasCount p length off) := inferInstanceAs (Decidable (_ ∧ _))

/-- The name at `i` ends the search. -/
def Accepted (p : Memory) (length i : ℕ) : Prop := ∃ off, packageAt p length i = some off ∧ HasCount p length off

instance (p : Memory) (length i : ℕ) : Decidable (Accepted p length i) :=
  inferInstanceAs (Decidable (∃ off ∈ packageAt p length i, HasCount p length off))

/-- How many bytes an integer has after its prefix. -/
def integerSize (op : BitVec 8) : Option ℕ :=
  if op = 0x0A then some 1
  else if op = 0x0B then some 2
  else if op = 0x0C then some 4
  else if op = 0x0E then some 8
  else none

/-- Where an element ends that is accepted. -/
def elementEnd (p : Memory) (length off : ℕ) : Option ℕ :=
  if off ≥ length then none
  else
    match integerSize (p off) with
    | none => some ((off + 1) % 2 ^ 32)
    | some n => if (off + n) % 2 ^ 32 ≥ length then none else some ((off + (n + 1)) % 2 ^ 32)

/-- A prefix in the last byte, whose integer would end beyond what a `uint32_t` can count. -/
def ElementOverrun (p : Memory) (length off : ℕ) : Prop :=
  off + 1 = length ∧ ∃ n, integerSize (p off) = some n ∧ 2 ^ 32 ≤ off + n

instance (p : Memory) (length off : ℕ) : Decidable (ElementOverrun p length off) :=
  inferInstanceAs (Decidable (_ ∧ ∃ n ∈ integerSize (p off), 2 ^ 32 ≤ off + n))

/-- One of the next `count` elements does. -/
def ElementsOverrun (p : Memory) (length : ℕ) : ℕ → ℕ → Prop
  | 0, _ => False
  | count + 1, off => ElementOverrun p length off ∨
      ∃ next, elementEnd p length off = some next ∧ ElementsOverrun p length count next

instance ElementsOverrun.decidable (p : Memory) (length : ℕ) :
    ∀ count off, Decidable (ElementsOverrun p length count off)
  | 0, _ => inferInstanceAs (Decidable False)
  | count + 1, off =>
    have := fun next => ElementsOverrun.decidable p length count next
    inferInstanceAs (Decidable (_ ∨ ∃ next ∈ elementEnd p length off, ElementsOverrun p length count next))

/-- A method or package opcode in the last byte, or an element with the prefix there. -/
def Overrun (p : Memory) (length i : ℕ) : Prop :=
  (p (afterName p i) = 0x14 ∧ afterName p i + 1 = length) ∨
    ∃ off, packageAt p length i = some off ∧
      (off + 1 = length ∨ HasCount p length off ∧
        ElementsOverrun p length (min 4 (p (countAt p off)).toNat) ((countAt p off + 1) % 2 ^ 32))

instance (p : Memory) (length i : ℕ) : Decidable (Overrun p length i) :=
  inferInstanceAs (Decidable (_ ∨ ∃ off ∈ packageAt p length i, (_ ∨ _ ∧ _)))

section Search

variable {p : Memory} {length off i : ℕ}

theorem value_opAt (op : BitVec 8) : (opAt p length off op).value = true ↔ off < length ∧ p off = op := by
  rw [opAt]
  split
  · next inside =>
    simp only [Reading.value_bind, Memory.value_readByte, Reading.value_pure, beq_iff_eq, inside, true_and]
  · next outside => simp only [Reading.value_pure, Bool.false_eq_true, outside, false_and]

theorem within_opAt (op : BitVec 8) : (opAt p length off op).Within (· < length) := by
  rw [opAt]
  split
  · next inside =>
    rw [Reading.within_bind, Memory.within_readByte]
    exact ⟨inside, Reading.within_pure _⟩
  · exact Reading.within_pure _

theorem value_matchBytes {bytes : List (BitVec 8)} (room : off + bytes.length < 2 ^ 32) :
    (matchBytes p off bytes).value = true ↔ p.Holds off bytes := by
  induction bytes generalizing off with
  | nil => exact iff_of_true rfl trivial
  | cons byte rest ih =>
    rw [List.length_cons] at room
    rw [matchBytes, Reading.value_bind, Memory.value_readByte, Memory.Holds]
    split
    · next same => rw [Nat.mod_eq_of_lt (by omega), ih (by omega), and_iff_right same]
    · next differ => exact iff_of_false Bool.false_ne_true fun both => differ both.1

theorem within_matchBytes {bytes : List (BitVec 8)} (inside : off + bytes.length ≤ length) (small : length < 2 ^ 32) :
    (matchBytes p off bytes).Within (· < length) := by
  induction bytes generalizing off with
  | nil => exact Reading.within_pure _
  | cons byte rest ih =>
    rw [List.length_cons] at inside
    rw [matchBytes, Reading.within_bind, Memory.within_readByte]
    refine ⟨by omega, ?_⟩
    split
    · rw [Nat.mod_eq_of_lt (by omega)]
      exact ih (by omega)
    · exact Reading.within_pure _

theorem value_matchName (small : length < 2 ^ 32) (inside : i + 4 < length) :
    (matchBytes p i s5Name).value = true ↔ Named p length i :=
  (value_matchBytes (show i + 4 < 2 ^ 32 by omega)).trans (and_iff_right inside).symm

theorem within_seekPackage (fuel k : ℕ) : (seekPackage p length off fuel k).Within (· < length) := by
  induction fuel generalizing k with
  | zero => exact Reading.within_pure _
  | succ fuel ih =>
    rw [seekPackage]
    split
    · next inside =>
      rw [Reading.within_bind, Memory.within_readByte]
      refine ⟨inside, ?_⟩
      split
      · exact Reading.within_pure _
      · exact ih (k + 1)
    · exact Reading.within_pure _

/-- The bytes past the end are no package, so nothing is missed when the search stops there. -/
theorem value_seekPackage (small : length < 2 ^ 32) (start : off < 2 ^ 32) (fuel k : ℕ)
    (reached : k = 0 ∨ off + k ≤ length) :
    (seekPackage p length off fuel k).value =
      ((List.range' (off + k) fuel).find? fun off => off < length ∧ p off = 0x12).getD off := by
  induction fuel generalizing k with
  | zero => rfl
  | succ fuel ih =>
    have place : (off + k) % 2 ^ 32 = off + k := Nat.mod_eq_of_lt (by omega)
    rw [seekPackage, List.range'_succ, place]
    split
    · next inside =>
      rw [Reading.value_bind, Memory.value_readByte]
      split
      · next found => rw [List.find?_cons_of_pos (by simpa using ⟨inside, found⟩)]; rfl
      · next other =>
        rw [List.find?_cons_of_neg (by simpa using fun _ => other), ih (k + 1) (Or.inr (by omega)), Nat.add_assoc]
    · next outside =>
      have none : ((off + k) :: List.range' (off + k + 1) fuel).find?
          (fun off => off < length ∧ p off = 0x12) = none := by
        rw [List.find?_eq_none, ← List.range'_succ]
        intro x member
        rw [List.mem_range'_1] at member
        simpa using fun inside => absurd inside (by omega)
      rw [none]
      rfl

/-- The search arrives at the package if it arrives anywhere. -/
theorem packageAt_eq (small : length < 2 ^ 32) {off : ℕ}
    (arrived : (skipMethod p length (afterName p i)).value = off) :
    packageAt p length i = if off < length ∧ p off = 0x12 then some off else none := by
  subst arrived
  rw [packageAt, skipMethod, Reading.value_bind]
  simp only [value_opAt]
  split
  · next method =>
    rw [Reading.value_bind, Memory.value_readByte, Nat.mod_eq_of_lt (show afterName p i + 1 < 2 ^ 32 by omega),
      show ∀ n, afterName p i + (1 + n + 1) = afterName p i + n + 2 by omega,
      value_seekPackage small (Nat.mod_lt _ (by decide)) 16 0 (Or.inl rfl), Nat.add_zero]
    cases found : List.find? (fun off => decide (off < length ∧ p off = 0x12))
      (List.range' ((afterName p i + pkglenSize (p (afterName p i + 1)) + 2) % 2 ^ 32) 16) with
    | some off =>
      have here := List.find?_some found
      rw [Option.getD_some, if_pos (of_decide_eq_true here)]
    | none =>
      have missing := List.find?_eq_none.mp found _ (List.mem_range'_1.mpr ⟨le_rfl, by omega⟩)
      rw [Option.getD_none, if_neg (by simpa using missing)]
  · rw [Reading.value_pure, List.find?_singleton]
    simp only [decide_eq_true_eq]

theorem within_skipMethod (small : length < 2 ^ 32) :
    (skipMethod p length off).Within (· < length) ↔ ¬(p off = 0x14 ∧ off + 1 = length) := by
  rw [skipMethod, Reading.within_bind, and_iff_right (within_opAt _)]
  simp only [value_opAt]
  split
  · next method =>
    rw [Reading.within_bind, and_iff_left (within_seekPackage _ _), Memory.within_readByte,
      Nat.mod_eq_of_lt (by omega), and_iff_right method.2]
    omega
  · next other =>
    refine iff_of_true (Reading.within_pure _) fun cut => other ⟨by omega, cut.1⟩

/-! ### Elements -/

theorem within_parseConst {n : ℕ} (some : 0 < n) (few : n ≤ 8) (small : length < 2 ^ 32)
    (inside : off < length) :
    (parseConst p length off n).Within (· < length) ↔ ¬(off + 1 = length ∧ 2 ^ 32 ≤ off + n) := by
  rw [parseConst]
  split
  · next beyond => exact iff_of_true (Reading.within_pure _) (by omega)
  · next fits =>
    rw [Reading.within_bind, and_iff_left (Reading.within_pure _), Memory.within_readByte]
    rcases Nat.lt_or_ge (off + 1) length with more | last
    · exact iff_of_true (by omega) (by omega)
    · obtain rfl : length = off + 1 := by omega
      rw [Nat.mod_eq_of_lt small]
      omega

/-- An element that is not an integer with a prefix is one byte. -/
theorem parseIntElement_eq (inside : off < length) :
    parseIntElement p length off =
      (p.readByte off >>= fun op =>
        match integerSize op with
        | some n => parseConst p length off n
        | none => pure (some (op, (off + 1) % 2 ^ 32))) := by
  rw [parseIntElement, if_neg (by omega)]
  refine congrArg (p.readByte off >>= ·) (funext fun op => ?_)
  rcases Decidable.em (op ∈ [0x00, 0x01, 0xFF, 0x0A, 0x0B, 0x0C, 0x0E]) with known | other
  · simp only [List.mem_cons, List.not_mem_nil, or_false] at known
    rcases known with rfl | rfl | rfl | rfl | rfl | rfl | rfl <;> rfl
  · simp only [List.mem_cons, List.not_mem_nil, or_false, not_or] at other
    obtain ⟨zero, one, ones, byte, word, dword, qword⟩ := other
    have large : op ≥ 0x02 := by bv_omega
    simp only [integerSize, zero, one, ones, byte, word, dword, qword, large, if_true, if_false]

theorem integerSize_le {op : BitVec 8} {n : ℕ} (integer : integerSize op = some n) : 0 < n ∧ n ≤ 8 := by
  simp only [integerSize] at integer
  split_ifs at integer <;> cases integer <;> omega

theorem within_parseIntElement (small : length < 2 ^ 32) :
    (parseIntElement p length off).Within (· < length) ↔ ¬ElementOverrun p length off := by
  rcases Nat.lt_or_ge off length with inside | outside
  · rw [parseIntElement_eq inside, Reading.within_bind, Memory.within_readByte, Memory.value_readByte,
      and_iff_right inside, ElementOverrun]
    split
    · next n integer =>
      obtain ⟨some, few⟩ := integerSize_le integer
      rw [within_parseConst some few small inside, integer]
      simp only [Option.some.injEq, exists_eq_left']
    · next single => 
      rw [single]
      simp only [reduceCtorEq, false_and, exists_false, and_false, not_false_iff, iff_true]
      exact Reading.within_pure _
  · rw [parseIntElement, if_pos outside]
    exact iff_of_true (Reading.within_pure _) fun cut => absurd cut.1 (by omega)

theorem elementEnd_eq : elementEnd p length off = (parseIntElement p length off).value.map Prod.snd := by
  rcases Nat.lt_or_ge off length with inside | outside
  · rw [parseIntElement_eq inside, elementEnd, if_neg (by omega), Reading.value_bind, Memory.value_readByte]
    split
    · next single => rw [single]; rfl
    · next n integer =>
      rw [integer]
      simp only [parseConst]
      split <;> rfl
  · rw [parseIntElement, elementEnd, if_pos outside, if_pos outside]
    rfl

theorem within_parseElements (small : length < 2 ^ 32) (count : ℕ) :
    (parseElements p length count off).Within (· < length) ↔ ¬ElementsOverrun p length count off := by
  induction count generalizing off with
  | zero => exact iff_of_true (Reading.within_pure _) id
  | succ count ih =>
    rw [parseElements, ElementsOverrun, Reading.within_bind, within_parseIntElement small, not_or, elementEnd_eq]
    refine and_congr_right fun _ => ?_
    cases parsed : (parseIntElement p length off).value with
    | none => simp
    | some result =>
      obtain ⟨value, next⟩ := result
      simp [ih]

/-! ### The package -/

/-- The elements that the package at `off` is taken to have. -/
def s5Values (p : Memory) (length off : ℕ) : Reading (List (BitVec 8)) :=
  parseElements p length (min 4 (p (countAt p off)).toNat) ((countAt p off + 1) % 2 ^ 32)

theorem s5Package_eq : s5Package p length (off + 1) =
    (p.readByte (off + 1) >>= fun _ =>
      if countAt p off ≥ length then pure none
      else p.readByte (countAt p off) >>= fun num =>
        if num < 2 then pure none
        else s5Values p length off >>= fun vals => pure (some (vals.getD 0 0, vals.getD 1 0))) := rfl

theorem value_s5Package : (s5Package p length (off + 1)).value =
    if HasCount p length off then
      some ((s5Values p length off).value.getD 0 0, (s5Values p length off).value.getD 1 0)
    else none := by
  rw [s5Package_eq, Reading.value_bind]
  split
  · next outside => rw [if_neg fun count => absurd count.1 (by omega)]; rfl
  · next inside =>
    rw [Reading.value_bind, Memory.value_readByte]
    split
    · next few => rw [if_neg fun count => absurd count.2 (BitVec.not_le.mpr few)]; rfl
    · next enough => rw [if_pos ⟨by omega, BitVec.not_lt.mp enough⟩]; rfl

theorem within_s5Package (inside : off < length) (small : length < 2 ^ 32) :
    (s5Package p length (off + 1)).Within (· < length) ↔
      ¬(off + 1 = length ∨ HasCount p length off ∧
        ElementsOverrun p length (min 4 (p (countAt p off)).toNat) ((countAt p off + 1) % 2 ^ 32)) := by
  rw [s5Package_eq, Reading.within_bind, Memory.within_readByte, not_or]
  refine and_congr (by omega) ?_
  split
  · next outside => exact iff_of_true (Reading.within_pure _) fun cut => absurd cut.1.1 (by omega)
  · next within =>
    rw [Reading.within_bind, Memory.within_readByte, and_iff_right (by omega), Memory.value_readByte]
    split
    · next few => exact iff_of_true (Reading.within_pure _) fun cut => absurd cut.1.2 (BitVec.not_le.mpr few)
    · next enough =>
      have count : HasCount p length off := ⟨by omega, BitVec.not_lt.mp enough⟩
      rw [Reading.within_bind, and_iff_left (Reading.within_pure _), s5Values, within_parseElements small,
        and_iff_right count]

/-! ### What comes after a name -/

theorem afterName_eq (small : length < 2 ^ 32) (inside : i + 4 < length) :
    (if (opAt p length ((i + 4) % 2 ^ 32) 0x08).value = true then ((i + 4) % 2 ^ 32 + 1) % 2 ^ 32
      else (i + 4) % 2 ^ 32) = afterName p i := by
  rw [Nat.mod_eq_of_lt (show i + 4 < 2 ^ 32 by omega), Nat.mod_eq_of_lt (show i + 4 + 1 < 2 ^ 32 by omega), afterName]
  simp only [value_opAt, inside, true_and]

theorem value_s5At (small : length < 2 ^ 32) (inside : i + 4 < length) :
    (s5At p length i).value = (packageAt p length i).bind fun off => (s5Package p length (off + 1)).value := by
  rw [s5At, Reading.value_bind, Reading.value_bind, afterName_eq small inside, Reading.value_bind]
  generalize arrived : (skipMethod p length (afterName p i)).value = off
  rw [packageAt_eq small arrived]
  simp only [value_opAt]
  split
  · next here => rw [Nat.mod_eq_of_lt (by omega)]; rfl
  · rfl

theorem within_s5At (small : length < 2 ^ 32) (inside : i + 4 < length) :
    (s5At p length i).Within (· < length) ↔ ¬Overrun p length i := by
  rw [s5At, Reading.within_bind, and_iff_right (within_opAt _), Reading.within_bind, afterName_eq small inside,
    within_skipMethod small, Reading.within_bind, and_iff_right (within_opAt _), Overrun, not_or]
  refine and_congr_right fun _ => ?_
  generalize arrived : (skipMethod p length (afterName p i)).value = off
  rw [packageAt_eq small arrived]
  simp only [value_opAt]
  split
  · next here =>
    rw [Nat.mod_eq_of_lt (by omega), within_s5Package here.1 small]
    simp only [Option.some.injEq, exists_eq_left']
  · exact iff_of_true (Reading.within_pure _) fun ⟨_, arrives, _⟩ => nomatch arrives

theorem value_s5At_eq_none (small : length < 2 ^ 32) (inside : i + 4 < length) :
    (s5At p length i).value = none ↔ ¬Accepted p length i := by
  rw [value_s5At small inside, Accepted]
  cases packageAt p length i with
  | none => simp
  | some off => simp [value_s5Package]

/-! ### The loop -/

/-- No name overruns that the search comes to from `i` on, which is until one is accepted. -/
def InsideFrom (p : Memory) (length i : ℕ) : Prop :=
  ∀ j, i ≤ j → Named p length j → (∀ k, i ≤ k → k < j → Named p length k → ¬Accepted p length k) →
    ¬Overrun p length j

theorem insideFrom_step : InsideFrom p length i ↔
    (Named p length i → ¬Overrun p length i) ∧
      (¬(Named p length i ∧ Accepted p length i) → InsideFrom p length (i + 1)) := by
  constructor
  · intro inside
    refine ⟨fun named => inside i le_rfl named fun k lower upper => absurd lower (by omega), ?_⟩
    intro passed j le named prior
    refine inside j (by omega) named fun k lower upper name accepted => ?_
    rcases Nat.eq_or_lt_of_le lower with rfl | lt
    · exact passed ⟨name, accepted⟩
    · exact prior k lt upper name accepted
  · rintro ⟨now, later⟩ j le named prior
    rcases Nat.eq_or_lt_of_le le with rfl | lt
    · exact now named
    · refine later (fun passed => prior i le_rfl lt passed.1 passed.2) j lt named fun k lower => prior k (by omega)

theorem within_findS5Loop (small : length < 2 ^ 32) (fuel : ℕ) (enough : length ≤ i + 4 + fuel)
    (reached : i = 0 ∨ i + 3 < length) :
    (findS5Loop p length fuel i).Within (· < length) ↔ InsideFrom p length i := by
  induction fuel generalizing i with
  | zero =>
    refine iff_of_true (Reading.within_pure _) fun j le named => ?_
    have room := named.1
    omega
  | succ fuel ih =>
    rw [findS5Loop, Nat.mod_eq_of_lt (show i + 4 < 2 ^ 32 by omega)]
    split
    · next inside =>
      have next := ih (i := i + 1) (by omega) (Or.inr (by omega))
      have within : i + s5Name.length ≤ length := Nat.le_of_lt inside
      rw [Reading.within_bind, insideFrom_step, and_iff_right (within_matchBytes within small)]
      simp only [value_matchName small inside]
      split
      · next named =>
        have accepts := value_s5At_eq_none (p := p) small inside
        rw [Reading.within_bind, within_s5At small inside, imp_iff_right named, and_iff_right named]
        refine and_congr_right fun _ => ?_
        cases found : (s5At p length i).value with
        | some _ =>
          rw [found] at accepts
          exact iff_of_true (Reading.within_pure _) fun refused => nomatch accepts.mpr refused
        | none => exact next.trans (imp_iff_right (accepts.mp found)).symm
      · next other =>
        rw [next]
        exact ⟨fun rest => ⟨fun named => absurd named other, fun _ => rest⟩,
          fun both => both.2 fun accepted => other accepted.1⟩
    · next outside =>
      refine iff_of_true (Reading.within_pure _) fun j le named => ?_
      have room := named.1
      omega

/-- The first name decides, if it has a package. -/
theorem value_findS5Loop (small : length < 2 ^ 32) {fuel j : ℕ} (enough : j < i + fuel) (le : i ≤ j)
    (first : ∀ k, i ≤ k → k < j → ¬Named p length k) (named : Named p length j) (accepted : Accepted p length j) :
    (findS5Loop p length fuel i).value = (s5At p length j).value := by
  have room := named.1
  induction fuel generalizing i with
  | zero => omega
  | succ fuel ih =>
    have inside : i + 4 < length := by omega
    rw [findS5Loop, Nat.mod_eq_of_lt (show i + 4 < 2 ^ 32 by omega), if_pos inside, Reading.value_bind]
    simp only [value_matchName small inside]
    split
    · next here =>
      obtain rfl : i = j := Nat.le_antisymm le (Nat.le_of_not_lt fun lt => first i le_rfl lt here)
      rw [Reading.value_bind]
      cases found : (s5At p length i).value with
      | some _ => rfl
      | none => exact absurd accepted ((value_s5At_eq_none small room).mp found)
    · next other =>
      have lt : i < j := Nat.lt_of_le_of_ne le fun same => other (same ▸ named)
      exact ih (by omega) lt fun k lower => first k (by omega)

end Search

end RaryOS.Model
