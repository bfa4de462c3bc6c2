import RaryOS.Model.Smbios

/-! # Fields of the SMBIOS structures

A table is a list of structures, each with a formatted part of any bytes and with strings. The scans find their
way by the zero bytes alone: no string is empty, so two zero bytes in a row are the end of the strings.
-/

namespace RaryOS.Soundness

open RaryOS.Core RaryOS.Model

/-- A structure: the formatted part after its first two bytes, and the strings. -/
structure SmbiosStructure where
  type : BitVec 8
  rest : List (BitVec 8)
  strings : List (List (BitVec 8))
  notEnd : type ≠ 127
  atLeast : 2 ≤ rest.length
  atMost : rest.length ≤ 253
  text : ∀ s ∈ strings, s ≠ [] ∧ 0 ∉ s

namespace SmbiosStructure

/-- The formatted part. -/
def body (d : SmbiosStructure) : List (BitVec 8) := d.type :: BitVec.ofNat 8 (d.rest.length + 2) :: d.rest

/-- Strings with a zero byte each. -/
def terminated (strings : List (List (BitVec 8))) : List (BitVec 8) := strings.flatMap (· ++ [0])

def encode (d : SmbiosStructure) : List (BitVec 8) :=
  d.body ++ (terminated d.strings ++ if d.strings = [] then [0, 0] else [0])

/-- The string number in the field. -/
def number (d : SmbiosStructure) (offset : BitVec 8) : ℕ := (d.body.getD offset.toNat 0).toNat

/-- The structure is of the type, long enough for the field, and has a string of the number in it. -/
def Has (d : SmbiosStructure) (type offset : BitVec 8) : Prop :=
  d.type = type ∧ offset.toNat < d.body.length ∧ 1 ≤ d.number offset ∧ d.number offset ≤ d.strings.length

instance (d : SmbiosStructure) (type offset : BitVec 8) : Decidable (d.Has type offset) :=
  inferInstanceAs (Decidable (_ ∧ _))

/-- Where the string `k` begins, counted from 0. -/
def stringPlace (d : SmbiosStructure) (k : ℕ) : ℕ := d.body.length + (terminated (d.strings.take k)).length

theorem length_body (d : SmbiosStructure) : d.body.length = d.rest.length + 2 := rfl

theorem length_toNat (d : SmbiosStructure) : (BitVec.ofNat 8 (d.rest.length + 2)).toNat = d.body.length := by
  have bound := d.atMost
  rw [BitVec.toNat_ofNat, length_body, Nat.mod_eq_of_lt (by omega)]

theorem terminated_cons (s : List (BitVec 8)) (strings : List (List (BitVec 8))) :
    terminated (s :: strings) = s ++ 0 :: terminated strings := by
  rw [terminated, List.flatMap_cons, List.append_assoc]
  rfl

end SmbiosStructure

/-- The table of the structures. -/
def smbiosTable (structures : List SmbiosStructure) : List (BitVec 8) := structures.flatMap SmbiosStructure.encode

open SmbiosStructure

section Strings

variable {m : Memory} {p : ℕ}

theorem skipText_of_zero (zero : m p = 0) (fuel : ℕ) :
    skipText m (fuel + 1) p = m.readByte p >>= fun _ => pure (some p) :=
  Reading.bind_of_value _ (if_neg (not_not.mpr zero))

theorem skipText_of_nonzero (nonzero : m p ≠ 0) (fuel : ℕ) :
    skipText m (fuel + 1) p = m.readByte p >>= fun _ => skipText m fuel (p + 1) :=
  Reading.bind_of_value _ (if_pos nonzero)

/-- A scan over text comes to the byte behind it. -/
theorem skipText_value {text : List (BitVec 8)} (holds : m.Holds p (text ++ [0])) (nonzero : 0 ∉ text) {fuel : ℕ}
    (enough : text.length < fuel) : (skipText m fuel p).value = some (p + text.length) := by
  induction text generalizing p fuel with
  | nil =>
    obtain ⟨fuel, rfl⟩ := Nat.exists_eq_add_one_of_ne_zero (Nat.ne_zero_of_lt enough)
    rw [skipText_of_zero holds.1]
    rfl
  | cons c rest ih =>
    have first := Memory.Holds.first_ne_zero holds nonzero (List.cons_ne_nil c rest)
    rw [List.length_cons] at enough ⊢
    obtain ⟨fuel, rfl⟩ := Nat.exists_eq_add_one_of_ne_zero (Nat.ne_zero_of_lt enough)
    rw [List.mem_cons, not_or] at nonzero
    rw [skipText_of_nonzero first, Reading.value_bind, ih holds.2 nonzero.2 (by omega), Nat.add_assoc, Nat.add_comm 1]

/-! One round of the search for a string: the end of the strings, the string itself, or a string before it. -/

section Rounds

variable {idx n : BitVec 8} {fuel : ℕ}

theorem smbiosStringFrom_of_zero (zero : m p = 0) :
    smbiosStringFrom m idx (fuel + 1) n p = m.readByte p >>= fun _ => pure (some 0) :=
  Reading.bind_of_value _ (if_neg (not_not.mpr zero))

theorem smbiosStringFrom_of_here (nonzero : m p ≠ 0) (here : n = idx) :
    smbiosStringFrom m idx (fuel + 1) n p = m.readByte p >>= fun _ => pure (some p) :=
  Reading.bind_of_value _ ((if_pos nonzero).trans (if_pos here))

theorem smbiosStringFrom_of_running (nonzero : m p ≠ 0) (other : n ≠ idx) (running : (skipText m fuel p).value = none) :
    smbiosStringFrom m idx (fuel + 1) n p =
      m.readByte p >>= fun _ => skipText m fuel p >>= fun _ => pure none := by
  apply Reading.bind_of_value
  rw [Memory.value_readByte, if_pos nonzero, if_neg other]
  apply Reading.bind_of_value
  rw [running]

theorem smbiosStringFrom_of_skipped {q : ℕ} (nonzero : m p ≠ 0) (other : n ≠ idx)
    (skipped : (skipText m fuel p).value = some q) :
    smbiosStringFrom m idx (fuel + 1) n p =
      m.readByte p >>= fun _ => skipText m fuel p >>= fun _ => smbiosStringFrom m idx fuel (n + 1) (q + 1) := by
  apply Reading.bind_of_value
  rw [Memory.value_readByte, if_pos nonzero, if_neg other]
  apply Reading.bind_of_value
  rw [skipped]

/-- A string before the one with the number. -/
theorem number_succ {k : ℕ} (number : n.toNat + k = idx.toNat) (other : n ≠ idx) :
    ∃ j, k = j + 1 ∧ (n + 1).toNat + j = idx.toNat := by
  have positive : k ≠ 0 := fun zero => other (BitVec.eq_of_toNat_eq (by omega))
  exact ⟨k - 1, by omega, by bv_omega⟩

end Rounds

/-- The string whose number is `n` more by `k`, or `NULL` when there are not as many. -/
theorem smbiosStringFrom_value {strings : List (List (BitVec 8))} {idx n : BitVec 8} {fuel k : ℕ}
    (holds : m.Holds p (terminated strings ++ [0])) (text : ∀ s ∈ strings, s ≠ [] ∧ 0 ∉ s)
    (number : n.toNat + k = idx.toNat) (enough : (terminated strings).length < fuel) :
    (smbiosStringFrom m idx fuel n p).value =
      some (if k < strings.length then p + (terminated (strings.take k)).length else 0) := by
  induction strings generalizing p n fuel k with
  | nil =>
    obtain ⟨fuel, rfl⟩ := Nat.exists_eq_add_one_of_ne_zero (Nat.ne_zero_of_lt enough)
    rw [smbiosStringFrom_of_zero holds.1]
    rfl
  | cons s rest ih =>
    obtain ⟨fuel, rfl⟩ := Nat.exists_eq_add_one_of_ne_zero (Nat.ne_zero_of_lt enough)
    obtain ⟨⟨some, nonzero⟩, others⟩ := List.forall_mem_cons.mp text
    rw [terminated_cons, List.length_append, List.length_cons] at enough
    rw [terminated_cons, List.append_assoc, List.cons_append, List.append_cons, Memory.holds_append] at holds
    obtain ⟨here, later⟩ := holds
    have first := here.first_ne_zero nonzero some
    rcases Decidable.em (n = idx) with same | other
    · obtain rfl : k = 0 := by rw [same] at number; omega
      rw [smbiosStringFrom_of_here first same, if_pos (by rw [List.length_cons]; omega)]
      rfl
    · obtain ⟨k, rfl, next⟩ := number_succ number other
      rw [List.length_append, List.length_singleton, ← Nat.add_assoc] at later
      rw [smbiosStringFrom_of_skipped first other (skipText_value here nonzero (by omega)), Reading.value_bind,
        Reading.value_bind, ih later others next (by omega), List.length_cons, List.take_succ_cons, terminated_cons,
        List.length_append, List.length_cons]
      simp only [Nat.add_lt_add_iff_right]
      congr 2
      omega

theorem value_nonzeroAt : (nonzeroAt m p).value = true ↔ m p ≠ 0 ∨ m (p + 1) ≠ 0 := by
  rw [nonzeroAt, Reading.value_bind, Memory.value_readByte]
  split
  · next first => exact iff_of_true rfl (Or.inl first)
  · next first => exact decide_eq_true_iff.trans (or_iff_right first).symm

theorem value_zerosAt : (zerosAt m p).value = true ↔ m p = 0 ∧ m (p + 1) = 0 := by
  rw [zerosAt, Reading.value_bind, Memory.value_readByte]
  split
  · next first => exact decide_eq_true_iff.trans (and_iff_right first).symm
  · next first => exact iff_of_false Bool.false_ne_true fun both => first both.1

theorem skipStrings_of_zeros (first : m p = 0) (second : m (p + 1) = 0) (fuel : ℕ) :
    (skipStrings m (fuel + 1) p).value = some p := by
  have stops : ¬(nonzeroAt m p).value = true := fun goes => (value_nonzeroAt.mp goes).elim (· first) (· second)
  rw [skipStrings, Reading.value_bind, if_neg stops]
  rfl

theorem skipStrings_of_nonzero (goes : m p ≠ 0 ∨ m (p + 1) ≠ 0) (fuel : ℕ) :
    (skipStrings m (fuel + 1) p).value = (skipStrings m fuel (p + 1)).value := by
  have passes : ¬(zerosAt m p).value = true := fun zeros =>
    goes.elim (· (value_zerosAt.mp zeros).1) (· (value_zerosAt.mp zeros).2)
  rw [skipStrings, Reading.value_bind, if_pos (value_nonzeroAt.mpr goes), Reading.value_bind, if_neg passes]

theorem skipStrings_text {text : List (BitVec 8)} (holds : m.Holds p text) (nonzero : 0 ∉ text) (fuel : ℕ) :
    (skipStrings m (text.length + fuel) p).value = (skipStrings m fuel (p + text.length)).value := by
  induction text generalizing p with
  | nil => rw [List.length_nil, Nat.zero_add, Nat.add_zero]
  | cons c rest ih =>
    rw [List.mem_cons, not_or] at nonzero
    rw [List.length_cons, Nat.add_right_comm, skipStrings_of_nonzero (Or.inl (holds.1 ▸ Ne.symm nonzero.1)),
      ih holds.2 nonzero.2, Nat.add_assoc, Nat.add_comm 1]

/-- The first two zero bytes in a row are the last terminator and the end. -/
theorem skipStrings_value {strings : List (List (BitVec 8))} {fuel : ℕ} (some_ : strings ≠ [])
    (holds : m.Holds p (terminated strings ++ [0])) (text : ∀ s ∈ strings, s ≠ [] ∧ 0 ∉ s)
    (enough : (terminated strings).length ≤ fuel) :
    (skipStrings m fuel p).value = some (p + (terminated strings).length - 1) := by
  induction strings generalizing p fuel with
  | nil => exact absurd rfl some_
  | cons s rest ih =>
    obtain ⟨⟨_, nonzero⟩, others⟩ := List.forall_mem_cons.mp text
    rw [terminated_cons, List.length_append, List.length_cons] at enough ⊢
    rw [terminated_cons, List.append_assoc, List.cons_append, Memory.holds_append] at holds
    obtain ⟨here, zero, later⟩ := holds
    obtain ⟨fuel, rfl⟩ : ∃ n, fuel = s.length + (n + 1) := ⟨fuel - s.length - 1, by omega⟩
    rw [skipStrings_text here nonzero]
    cases rest with
    | nil =>
      rw [skipStrings_of_zeros zero later.1]
      rfl
    | cons t others' =>
      obtain ⟨c, cs, rfl⟩ := List.exists_cons_of_ne_nil (others t (List.mem_cons_self ..)).1
      have next : m (p + s.length + 1) ≠ 0 := by
        rw [later.1]
        exact fun zero => (others _ (List.mem_cons_self ..)).2 (zero ▸ List.mem_cons_self ..)
      rw [skipStrings_of_nonzero (Or.inr next), ih (List.cons_ne_nil _ _) later others (by omega)]
      congr 1
      omega

end Strings

section Body

variable {m : Memory} {p : ℕ} {d : SmbiosStructure}

theorem body_type (body : m.Holds p d.body) : m p = d.type := body.1

theorem body_length (body : m.Holds p d.body) : (m (p + 1)).toNat = d.body.length := by
  rw [body.2.1, length_toNat]

theorem body_long (body : m.Holds p d.body) : ¬m (p + 1) < 4 := by
  have least := d.atLeast
  rw [BitVec.lt_def, body_length body, length_body]
  exact Nat.not_lt.mpr (Nat.add_le_add_right least 2)

end Body

section Structures

variable {m : Memory} {p : ℕ}

/-- The parts of a structure in memory. -/
structure HoldsStructure (m : Memory) (p : ℕ) (d : SmbiosStructure) : Prop where
  body : m.Holds p d.body
  strings : m.Holds (p + d.body.length) (terminated d.strings ++ [0])
  last : d.strings = [] → m (p + d.body.length + 1) = 0

theorem holdsStructure (d : SmbiosStructure) (holds : m.Holds p d.encode) : HoldsStructure m p d := by
  rw [encode, Memory.holds_append] at holds
  obtain ⟨body, strings⟩ := holds
  rcases Decidable.em (d.strings = []) with none | some
  · rw [if_pos none, none] at strings
    exact ⟨body, by rw [none]; exact ⟨strings.1, trivial⟩, fun _ => strings.2.1⟩
  · rw [if_neg some] at strings
    exact ⟨body, strings, fun none => absurd none some⟩

theorem length_encode (d : SmbiosStructure) :
    d.encode.length = d.body.length + (terminated d.strings).length + if d.strings = [] then 2 else 1 := by
  rw [encode, List.length_append, List.length_append, Nat.add_assoc]
  split <;> rfl

/-- The scan behind the formatted part comes to the end of the structure. -/
theorem HoldsStructure.skip {d : SmbiosStructure} (holds : HoldsStructure m p d) {fuel : ℕ}
    (enough : d.encode.length ≤ fuel) :
    ∃ q, (skipStrings m fuel (p + d.body.length)).value = some q ∧ q + 2 = p + d.encode.length := by
  rw [length_encode] at enough ⊢
  rcases Decidable.em (d.strings = []) with none | some
  · obtain ⟨fuel, rfl⟩ : ∃ n, fuel = n + 1 := ⟨fuel - 1, by rw [if_pos none] at enough; omega⟩
    have first := holds.strings
    rw [none] at first
    refine ⟨_, skipStrings_of_zeros first.1 (holds.last none) fuel, ?_⟩
    rw [if_pos none, none]
    rfl
  · rw [if_neg some] at enough ⊢
    refine ⟨_, skipStrings_value some holds.strings d.text (by omega), ?_⟩
    rw [length_body]
    omega

/-- The string of the field, or `NULL`. -/
theorem HoldsStructure.field {d : SmbiosStructure} (holds : HoldsStructure m p d) (type offset : BitVec 8) {fuel : ℕ}
    (enough : d.encode.length ≤ fuel) :
    (structureField m type offset fuel p).value =
      some (if d.Has type offset then p + d.stringPlace (d.number offset - 1) else 0) := by
  rw [length_encode] at enough
  have long : offset < m (p + 1) ↔ offset.toNat < d.body.length := by rw [BitVec.lt_def, body_length holds.body]
  rw [structureField, Reading.value_bind, Memory.value_readByte, body_type holds.body]
  split
  · next same =>
    rw [Reading.value_bind, Memory.value_readByte]
    simp only [long]
    split
    · next inside =>
      have idx : m (p + offset.toNat) = d.body.getD offset.toNat 0 := by
        rw [(Memory.holds_iff _).mp holds.body _ inside, List.getD_eq_getElem _ _ inside]
      rw [Reading.value_bind, Memory.value_readByte, smbiosString, idx]
      split
      · next zero => rw [if_neg fun has => absurd has.2.2.1 (by rw [number, zero]; decide)]; rfl
      · next positive =>
        have counted : 1 ≤ d.number offset := Nat.pos_of_ne_zero fun zero => positive (BitVec.eq_of_toNat_eq zero)
        have has : d.Has type offset ↔ d.number offset - 1 < d.strings.length := by
          refine ⟨fun has => ?_, fun few => ⟨same, inside, counted, by omega⟩⟩
          have most := has.2.2.2
          omega
        rw [Reading.value_bind, Memory.value_readByte, body_length holds.body,
          smbiosStringFrom_value holds.strings d.text (k := d.number offset - 1)
            (by rw [number] at counted ⊢; exact Nat.add_sub_cancel' counted) (by omega)]
        simp only [has, stringPlace, Nat.add_assoc]
    · next short => rw [if_neg fun has => short has.2.1]; rfl
  · next other => rw [if_neg fun has => other has.1]; rfl

/-- The address of the field's string in the first structure that has one, and 0 for `NULL`. -/
def fieldAddress (type offset : BitVec 8) : ℕ → List SmbiosStructure → ℕ
  | _, [] => 0
  | p, d :: rest =>
    if d.Has type offset then p + d.stringPlace (d.number offset - 1)
    else fieldAddress type offset (p + d.encode.length) rest

theorem findFieldFrom_value {structures : List SmbiosStructure} (holds : m.Holds p (smbiosTable structures))
    (type offset : BitVec 8) (positive : 0 < p) {fuel : ℕ} (enough : (smbiosTable structures).length ≤ fuel) :
    (findFieldFrom m type offset fuel structures.length p).value = some (fieldAddress type offset p structures) := by
  induction structures generalizing p with
  | nil => rfl
  | cons d rest ih =>
    rw [smbiosTable, List.flatMap_cons] at holds enough
    rw [Memory.holds_append] at holds
    rw [List.length_append] at enough
    have here := holdsStructure d holds.1
    have long := body_long here.body
    rw [List.length_cons, findFieldFrom, Reading.value_bind, Memory.value_readByte, body_type here.body,
      if_neg d.notEnd, Reading.value_bind, Memory.value_readByte, if_neg long, Reading.value_bind,
      here.field type offset (by omega), fieldAddress]
    rcases Decidable.em (d.Has type offset) with has | without
    · rw [if_pos has, if_pos has]
      dsimp only
      rw [if_pos (by omega)]
      rfl
    · rw [if_neg without, if_neg without]
      dsimp only
      obtain ⟨q, skipped, next⟩ := here.skip (show d.encode.length ≤ fuel by omega)
      rw [if_neg (not_not.mpr rfl), Reading.value_bind, Memory.value_readByte, body_length here.body,
        Reading.value_bind, skipped]
      dsimp only
      rw [next]
      exact ih holds.2 (by omega) (show (smbiosTable rest).length ≤ fuel from (Nat.le_add_left _ _).trans enough)

theorem fieldAddress_of_none {type offset : BitVec 8} {structures : List SmbiosStructure}
    (none : ∀ d ∈ structures, ¬d.Has type offset) : fieldAddress type offset p structures = 0 := by
  induction structures generalizing p with
  | nil => rfl
  | cons d rest ih =>
    obtain ⟨here, others⟩ := List.forall_mem_cons.mp none
    rw [fieldAddress, if_neg here, ih others]

theorem fieldAddress_of_first {type offset : BitVec 8} {before after : List SmbiosStructure} {d : SmbiosStructure}
    (first : ∀ e ∈ before, ¬e.Has type offset) (has : d.Has type offset) :
    fieldAddress type offset p (before ++ d :: after) =
      p + (smbiosTable before).length + d.stringPlace (d.number offset - 1) := by
  induction before generalizing p with
  | nil =>
    rw [List.nil_append, fieldAddress, if_pos has]
    rfl
  | cons e rest ih =>
    obtain ⟨here, others⟩ := List.forall_mem_cons.mp first
    rw [List.cons_append, fieldAddress, if_neg here, ih others, smbiosTable, smbiosTable, List.flatMap_cons,
      List.length_append, Nat.add_assoc p]

/-- The string at its place in the structure. -/
theorem HoldsStructure.string {d : SmbiosStructure} (holds : HoldsStructure m p d) {k : ℕ} {s : List (BitVec 8)}
    (numbered : d.strings[k]? = some s) : m.Holds (p + d.stringPlace k) (s ++ [0]) := by
  have parts : terminated d.strings =
      terminated (d.strings.take k) ++ ((s ++ [0]) ++ terminated (d.strings.drop (k + 1))) := by
    obtain ⟨inside, rfl⟩ := List.getElem?_eq_some_iff.mp numbered
    conv_lhs => rw [← List.take_append_drop k d.strings, List.drop_eq_getElem_cons inside]
    rw [terminated, List.flatMap_append, List.flatMap_cons]
    rfl
  have strings := holds.strings
  rw [parts, List.append_assoc, Memory.holds_append, List.append_assoc, Memory.holds_append] at strings
  rw [stringPlace, ← Nat.add_assoc]
  exact strings.2.1

/-- For every table that is the encoding of its structures: `find_field` returns the string whose number is in
the field of the first structure that is of the type, long enough, and has a string of this number; and `NULL`
if there is no such structure. -/
theorem find_field_finds {structures : List SmbiosStructure} (holds : m.Holds p (smbiosTable structures))
    (positive : 0 < p) (type offset : BitVec 8) {fuel : ℕ} (enough : (smbiosTable structures).length ≤ fuel) :
    ((∀ d ∈ structures, ¬d.Has type offset) → (findField m ⟨p, structures.length⟩ type offset fuel).value = some 0) ∧
      ∀ before d after, structures = before ++ d :: after → (∀ e ∈ before, ¬e.Has type offset) →
        d.Has type offset → ∃ s, d.strings[d.number offset - 1]? = some s ∧
          (findField m ⟨p, structures.length⟩ type offset fuel).value =
            some (p + (smbiosTable before).length + d.stringPlace (d.number offset - 1)) ∧
          m.Holds (p + (smbiosTable before).length + d.stringPlace (d.number offset - 1)) (s ++ [0]) := by
  have value : (findField m ⟨p, structures.length⟩ type offset fuel).value =
      some (fieldAddress type offset p structures) := by
    rw [findField, if_neg (by exact Nat.ne_of_gt positive)]
    exact findFieldFrom_value holds type offset positive enough
  rw [value]
  refine ⟨fun none => congrArg some (fieldAddress_of_none none), ?_⟩
  rintro before d after rfl first has
  have inside : d.number offset - 1 < d.strings.length := by
    obtain ⟨-, -, least, most⟩ := has
    omega
  rw [smbiosTable, List.flatMap_append, List.flatMap_cons, Memory.holds_append, Memory.holds_append] at holds
  refine ⟨_, List.getElem?_eq_getElem inside, congrArg some (fieldAddress_of_first first has), ?_⟩
  exact (holdsStructure d holds.2.1).string (List.getElem?_eq_getElem inside)

end Structures

/-- A structure without strings, and a baseboard with two. -/
def sampleSmbios : List SmbiosStructure :=
  [{ type := 1, rest := [0x00, 0x00], strings := [], notEnd := by decide, atLeast := by decide, atMost := by decide,
     text := by decide },
   { type := 2, rest := [0x00, 0x00, 0x02, 0x01], strings := [[0x41], [0x42, 0x43]], notEnd := by decide,
     atLeast := by decide, atMost := by decide, text := by decide }]

def sampleSmbiosMemory : Memory := fun address => (smbiosTable sampleSmbios).getD (address - 0x2000) 0

theorem find_field_finds_sample : (findField sampleSmbiosMemory ⟨0x2000, 2⟩ 2 4 32).value = some 0x200E := by
  have holds : sampleSmbiosMemory.Holds 0x2000 (smbiosTable sampleSmbios) := by decide
  have enough : (smbiosTable sampleSmbios).length ≤ 32 := by decide
  obtain ⟨_, _, found, _⟩ := (find_field_finds holds (by decide) 2 4 enough).2 [_] _ [] rfl (by decide) (by decide)
  exact found

end RaryOS.Soundness
