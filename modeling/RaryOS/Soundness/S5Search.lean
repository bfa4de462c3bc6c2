import RaryOS.Proofs.Acpi

/-! # The sleep types in a table

`find_s5` undoes every encoding of the two integers. Where it stays within the table is less: the first byte of a
`PkgLength` is read without a look at the length, and a `uint32_t` offset plus the size of an integer may wrap
around.
-/

namespace RaryOS.Soundness

open RaryOS.Core RaryOS.Model

/-- An integer constant in AML. -/
inductive AmlInteger
  | zero
  | one
  | ones
  | byte (v : BitVec 8)
  | word (v : BitVec 16)
  | dword (v : BitVec 32)
  | qword (v : BitVec 64)
deriving DecidableEq, Repr

namespace AmlInteger

/-- The first `n` bytes of a number, the least significant first. -/
def lowBytes {w : ℕ} (v : BitVec w) (n : ℕ) : List (BitVec 8) := (List.range n).map fun k => v.extractLsb' (8 * k) 8

def encode : AmlInteger → List (BitVec 8)
  | zero => [0x00]
  | one => [0x01]
  | ones => [0xFF]
  | byte v => 0x0A :: lowBytes v 1
  | word v => 0x0B :: lowBytes v 2
  | dword v => 0x0C :: lowBytes v 4
  | qword v => 0x0E :: lowBytes v 8

def value : AmlInteger → ℕ
  | zero => 0
  | one => 1
  | ones => 2 ^ 64 - 1
  | byte v => v.toNat
  | word v => v.toNat
  | dword v => v.toNat
  | qword v => v.toNat

def lowByte (a : AmlInteger) : BitVec 8 := BitVec.ofNat 8 a.value

end AmlInteger

/-- A `PkgLength`: the two top bits of its first byte count the others. -/
structure PkgLength where
  lead : BitVec 8
  more : List (BitVec 8)
  size : more.length = (lead >>> 6).toNat

/-- A table with a package of two elements or more after the name. -/
structure S5Table where
  pre : List (BitVec 8)
  pkgLength : PkgLength
  num : BitVec 8
  first : AmlInteger
  second : AmlInteger
  post : List (BitVec 8)
  two : 2 ≤ num

/-- The package. -/
def S5Table.package (t : S5Table) : List (BitVec 8) :=
  0x12 :: t.pkgLength.lead :: (t.pkgLength.more ++ t.num :: (t.first.encode ++ t.second.encode ++ t.post))

def S5Table.bytes (t : S5Table) : List (BitVec 8) := t.pre ++ (s5Name ++ t.package)

/-- The name is at no earlier place. -/
def S5Table.First (t : S5Table) : Prop :=
  ∀ before after, t.bytes = before ++ (s5Name ++ after) → t.pre.length ≤ before.length

theorem pkglenSize_eq : ∀ lead : BitVec 8, pkglenSize lead = (lead >>> 6).toNat + 1 := by decide

section Elements

variable {p : Memory} {length off : ℕ}

theorem parseConst_value {w n : ℕ} {v : BitVec w} (holds : p.Holds (off + 1) (AmlInteger.lowBytes v (n + 1)))
    (inside : off + (n + 2) ≤ length) (small : length < 2 ^ 32) :
    (parseConst p length off (n + 1)).value = some (BitVec.ofNat 8 v.toNat, off + (n + 2)) := by
  have low : p (off + 1) = BitVec.ofNat 8 v.toNat := by
    rw [AmlInteger.lowBytes, List.range_succ_eq_map] at holds
    exact holds.1
  rw [parseConst, Nat.mod_eq_of_lt (by omega), if_neg (by omega), Reading.value_bind, Memory.value_readByte,
    Nat.mod_eq_of_lt (show off + 1 < 2 ^ 32 by omega), low, Nat.mod_eq_of_lt (by omega)]
  rfl

/-- An integer without a prefix. -/
theorem parseIntElement_of_single {op : BitVec 8} (holds : p off = op) (single : integerSize op = none)
    (inside : off < length) (small : length < 2 ^ 32) :
    (parseIntElement p length off).value = some (op, off + 1) := by
  rw [parseIntElement_eq inside, Reading.value_bind, Memory.value_readByte, holds, single,
    Nat.mod_eq_of_lt (by omega)]
  rfl

/-- An integer with a prefix. -/
theorem parseIntElement_of_prefix {w n : ℕ} {op : BitVec 8} {v : BitVec w}
    (holds : p.Holds off (op :: AmlInteger.lowBytes v (n + 1))) (integer : integerSize op = some (n + 1))
    (inside : off + (n + 2) ≤ length) (small : length < 2 ^ 32) :
    (parseIntElement p length off).value = some (BitVec.ofNat 8 v.toNat, off + (n + 2)) := by
  rw [parseIntElement_eq (by omega), Reading.value_bind, Memory.value_readByte, holds.1, integer]
  exact parseConst_value holds.2 inside small

theorem parseIntElement_encode {a : AmlInteger} (holds : p.Holds off a.encode)
    (inside : off + a.encode.length ≤ length) (small : length < 2 ^ 32) :
    (parseIntElement p length off).value = some (a.lowByte, off + a.encode.length) := by
  cases a with
  | zero => exact parseIntElement_of_single holds.1 rfl inside small
  | one => exact parseIntElement_of_single holds.1 rfl inside small
  | ones => exact parseIntElement_of_single holds.1 rfl inside small
  | byte v => exact parseIntElement_of_prefix holds rfl inside small
  | word v => exact parseIntElement_of_prefix holds rfl inside small
  | dword v => exact parseIntElement_of_prefix holds rfl inside small
  | qword v => exact parseIntElement_of_prefix holds rfl inside small

/-- The first two of the elements. -/
theorem parseElements_two {a b : AmlInteger} (holds : p.Holds off (a.encode ++ b.encode))
    (inside : off + (a.encode ++ b.encode).length ≤ length) (small : length < 2 ^ 32) (more : ℕ) :
    ∃ rest, (parseElements p length (more + 2) off).value = a.lowByte :: b.lowByte :: rest := by
  rw [Memory.holds_append] at holds
  rw [List.length_append] at inside
  have first := parseIntElement_encode holds.1 (by omega) small
  have second := parseIntElement_encode holds.2 (by omega) small
  refine ⟨(parseElements p length more (off + a.encode.length + b.encode.length)).value, ?_⟩
  rw [parseElements, Reading.value_bind, first, Reading.value_bind, parseElements, Reading.value_bind, second]
  rfl

end Elements

section Table

variable {dsdt : Memory} (t : S5Table) (holds : dsdt.Holds 0 t.bytes)

theorem S5Table.length_bytes : t.bytes.length = t.pre.length + (4 + t.package.length) := by
  rw [S5Table.bytes, List.length_append, List.length_append]
  rfl

include holds

theorem S5Table.holds_name : dsdt.Holds t.pre.length s5Name ∧ dsdt.Holds (t.pre.length + 4) t.package := by
  rw [S5Table.bytes, Memory.holds_append, Memory.holds_append, Nat.zero_add] at holds
  exact holds.2

/-- The package is where the search looks for it, with its count and its elements. -/
theorem S5Table.holds_package (small : t.bytes.length < 2 ^ 32) :
    packageAt dsdt t.bytes.length t.pre.length = some (t.pre.length + 4) ∧
      HasCount dsdt t.bytes.length (t.pre.length + 4) ∧
      dsdt.Holds (countAt dsdt (t.pre.length + 4) + 1) (t.first.encode ++ t.second.encode) ∧
      countAt dsdt (t.pre.length + 4) + 1 + (t.first.encode ++ t.second.encode).length ≤ t.bytes.length := by
  obtain ⟨opcode, lead, rest⟩ := (t.holds_name holds).2
  rw [Memory.holds_append] at rest
  obtain ⟨-, num, elements⟩ := rest
  rw [Memory.holds_append] at elements
  have length := t.length_bytes
  simp only [S5Table.package, List.length_cons, List.length_append, t.pkgLength.size] at length
  have count : countAt dsdt (t.pre.length + 4) = t.pre.length + 4 + 1 + 1 + t.pkgLength.more.length := by
    rw [countAt, lead, pkglenSize_eq, t.pkgLength.size, Nat.mod_eq_of_lt (by omega)]
    omega
  have start : afterName dsdt t.pre.length = t.pre.length + 4 := by
    rw [afterName, opcode, if_neg (by decide)]
  refine ⟨?_, ⟨?_, ?_⟩, ?_, ?_⟩
  · rw [packageAt, start, opcode, if_neg (fun method => absurd method.2 (by decide)), List.find?_singleton,
      if_pos (decide_eq_true ⟨by omega, opcode⟩)]
  · rw [count, t.pkgLength.size]
    omega
  · rw [count, num]
    exact t.two
  · rw [count]
    exact elements.1
  · rw [count, t.pkgLength.size, List.length_append]
    omega

/-- For every table whose first name is followed by a package of two integers or more, in any encoding and with
any bytes before and after: the search returns the low bytes of the first two. -/
theorem find_s5_decodes (small : t.bytes.length < 2 ^ 32) (first : t.First) :
    (findS5 dsdt t.bytes.length).value = some (t.first.lowByte, t.second.lowByte) := by
  obtain ⟨package, count, elements, inside⟩ := t.holds_package holds small
  have length := t.length_bytes
  have named : Named dsdt t.bytes.length t.pre.length := by
    refine ⟨?_, (t.holds_name holds).1⟩
    rw [length, S5Table.package, List.length_cons]
    omega
  have unnamed : ∀ k, 0 ≤ k → k < t.pre.length → ¬Named dsdt t.bytes.length k := by
    rintro k - before ⟨inside, found⟩
    rw [← Nat.zero_add k] at found
    have later := first _ _ (holds.part found (Nat.le_of_lt inside))
    rw [List.length_take] at later
    omega
  have two : 2 ≤ (dsdt (countAt dsdt (t.pre.length + 4))).toNat := BitVec.le_def.mp count.2
  obtain ⟨more, few⟩ : ∃ more, min 4 (dsdt (countAt dsdt (t.pre.length + 4))).toNat = more + 2 :=
    ⟨min 4 (dsdt (countAt dsdt (t.pre.length + 4))).toNat - 2, by omega⟩
  obtain ⟨rest, values⟩ := parseElements_two elements inside small more
  rw [findS5, value_findS5Loop small (by omega) (Nat.zero_le _) unnamed named ⟨_, package, count⟩,
    value_s5At small named.1, package, Option.bind_some, value_s5Package, if_pos count, s5Values, few,
    Nat.mod_eq_of_lt (Nat.lt_of_le_of_lt count.1 small), values]
  rfl

end Table

/-- A table of a header byte, the name and a package of four elements, the first two a byte and a word. -/
def sampleS5Table : S5Table where
  pre := [0x08]
  pkgLength := ⟨0x0A, [], rfl⟩
  num := 4
  first := .byte 5
  second := .word 0x1203
  post := [0x00, 0x00]
  two := by decide

def bytesMemory (bytes : List (BitVec 8)) : Memory := fun off => bytes.getD off 0

theorem find_s5_decodes_sample : (findS5 (bytesMemory sampleS5Table.bytes) 15).value = some (5, 3) :=
  find_s5_decodes sampleS5Table (by decide) (by decide) fun before after same => by
    cases before with
    | nil => exact absurd (List.cons.inj same).1 (by decide)
    | cons _ _ => exact Nat.succ_pos _

/-- For every table of every length: the search reads inside it, if and only if no name overruns that it comes
to. -/
theorem find_s5_reads_inside_iff (dsdt : Memory) {length : ℕ} (small : length < 2 ^ 32) :
    (∀ off ∈ (findS5 dsdt length).reads, off < length) ↔ InsideFrom dsdt length 0 :=
  within_findS5Loop small (2 ^ 32) (by omega) (Or.inl rfl)

/-- A package of two elements, the second cut off. -/
def sampleS5Bytes : List (BitVec 8) := [0x5F, 0x53, 0x35, 0x5F, 0x12, 0x05, 0x02, 0x00]

theorem find_s5_reads_inside_iff_sample :
    InsideFrom (bytesMemory sampleS5Bytes) 8 0 ∧
      ∀ off ∈ (findS5 (bytesMemory sampleS5Bytes) 8).reads, off < 8 := by
  have names : ∀ j < 4, Named (bytesMemory sampleS5Bytes) 8 j → ¬Overrun (bytesMemory sampleS5Bytes) 8 j := by decide
  have inside : InsideFrom (bytesMemory sampleS5Bytes) 8 0 :=
    fun j _ named _ => names j (Nat.lt_of_add_lt_add_right named.1) named
  exact ⟨inside, (find_s5_reads_inside_iff _ (by decide)).mpr inside⟩

/-- The opcode of the package is the last byte. -/
theorem find_s5_reads_inside_fails :
    ¬∀ off ∈ (findS5 (bytesMemory [0x5F, 0x53, 0x35, 0x5F, 0x12]) 5).reads, off < 5 := by
  decide

end RaryOS.Soundness
