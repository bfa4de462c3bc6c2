import RaryOS.Core.Memory

/-! # Computations that read memory

A `Reading` is a value with the places that were read for it, in order. `Within` says that all of them are good,
and has one rule for each way of composing computations. The second half is about byte strings that lie in a
memory.
-/

namespace RaryOS.Core

/-- A value, and where memory was read for it. -/
structure Reading (α : Type) where
  value : α
  reads : List ℕ

namespace Reading

variable {α β : Type}

instance : Monad Reading where
  pure value := ⟨value, []⟩
  bind r f := ⟨(f r.value).value, r.reads ++ (f r.value).reads⟩

@[simp] theorem value_pure (a : α) : (pure a : Reading α).value = a := rfl

@[simp] theorem value_bind (r : Reading α) (f : α → Reading β) : (r >>= f).value = (f r.value).value := rfl

/-- Only good places are read. -/
def Within (r : Reading α) (good : ℕ → Prop) : Prop := ∀ place ∈ r.reads, good place

variable {good : ℕ → Prop}

@[simp] theorem within_pure (a : α) : (pure a : Reading α).Within good := fun _ member => nomatch member

@[simp] theorem within_bind (r : Reading α) (f : α → Reading β) :
    (r >>= f).Within good ↔ r.Within good ∧ (f r.value).Within good :=
  List.forall_mem_append

/-- What is read decides how a computation goes on. -/
theorem bind_of_value (r : Reading α) {f g : α → Reading β} (same : f r.value = g r.value) : r >>= f = r >>= g :=
  congrArg (fun rest => (⟨rest.value, r.reads ++ rest.reads⟩ : Reading β)) same

end Reading

namespace Memory

variable {m : Memory} {place : ℕ}

/-- Read one byte. -/
def readByte (m : Memory) (place : ℕ) : Reading (BitVec 8) := ⟨m place, [place]⟩

@[simp] theorem value_readByte (m : Memory) (place : ℕ) : (m.readByte place).value = m place := rfl

@[simp] theorem within_readByte {good : ℕ → Prop} (m : Memory) (place : ℕ) :
    (m.readByte place).Within good ↔ good place :=
  List.forall_mem_singleton

/-- The bytes lie in the memory from `place` on. -/
def Holds (m : Memory) : ℕ → List (BitVec 8) → Prop
  | _, [] => True
  | place, byte :: rest => m place = byte ∧ m.Holds (place + 1) rest

instance Holds.decidable (m : Memory) : ∀ (place : ℕ) (bytes : List (BitVec 8)), Decidable (m.Holds place bytes)
  | _, [] => inferInstanceAs (Decidable True)
  | place, byte :: rest =>
    have := Holds.decidable m (place + 1) rest
    inferInstanceAs (Decidable (m place = byte ∧ m.Holds (place + 1) rest))

theorem holds_append (first second : List (BitVec 8)) :
    m.Holds place (first ++ second) ↔ m.Holds place first ∧ m.Holds (place + first.length) second := by
  induction first generalizing place with
  | nil => simp only [List.nil_append, Holds, true_and, List.length_nil, Nat.add_zero]
  | cons byte rest ih =>
    rw [List.cons_append, Holds, Holds, ih, and_assoc, List.length_cons, Nat.add_comm rest.length, Nat.add_assoc]

/-- Byte by byte. -/
theorem holds_iff (bytes : List (BitVec 8)) :
    m.Holds place bytes ↔ ∀ k (inside : k < bytes.length), m (place + k) = bytes[k] := by
  induction bytes generalizing place with
  | nil => exact iff_of_true trivial fun k inside => absurd inside (Nat.not_lt_zero k)
  | cons byte rest ih =>
    rw [Holds, ih]
    constructor
    · rintro ⟨first, others⟩ (_ | k) inside
      · exact first
      · rw [← Nat.add_assoc, Nat.add_right_comm]
        exact others k (Nat.lt_of_succ_lt_succ inside)
    · intro bytes
      refine ⟨bytes 0 (Nat.succ_pos _), fun k inside => ?_⟩
      rw [Nat.add_assoc, Nat.add_comm 1 k]
      exact bytes (k + 1) (Nat.succ_lt_succ inside)

theorem Holds.unique {first second : List (BitVec 8)} (left : m.Holds place first) (right : m.Holds place second)
    (length : first.length = second.length) : first = second := by
  refine List.ext_getElem length fun k inside inside' => ?_
  rw [← (holds_iff first).mp left k inside, ← (holds_iff second).mp right k inside']

/-- Text without zero bytes does not begin with one. -/
theorem Holds.first_ne_zero {text rest : List (BitVec 8)} (holds : m.Holds place (text ++ rest)) (nonzero : 0 ∉ text)
    (nonempty : text ≠ []) : m place ≠ 0 := by
  obtain ⟨c, others, rfl⟩ := List.exists_cons_of_ne_nil nonempty
  rw [List.mem_cons, not_or] at nonzero
  have here : m place = c := holds.1
  rw [here]
  exact Ne.symm nonzero.1

/-- A string depends on exactly its bytes. -/
theorem Holds.congr {m' : Memory} {bytes : List (BitVec 8)} (holds : m.Holds place bytes)
    (same : ∀ k < bytes.length, m' (place + k) = m (place + k)) : m'.Holds place bytes := by
  rw [holds_iff] at holds ⊢
  intro k inside
  rw [same k inside, holds k inside]

/-- A byte written behind a string makes it longer. -/
theorem Holds.store8_snoc {bytes : List (BitVec 8)} (holds : m.Holds place bytes) (byte : BitVec 8) :
    (m.store8 (place + bytes.length) byte).Holds place (bytes ++ [byte]) := by
  rw [holds_append]
  refine ⟨holds.congr fun k inside => ?_, m.store8_apply_same _ byte, trivial⟩
  exact m.store8_apply_of_ne byte (by omega)

/-- A string that is found inside another is a part of it. -/
theorem Holds.part {bytes part : List (BitVec 8)} {k : ℕ} (holds : m.Holds place bytes)
    (found : m.Holds (place + k) part) (inside : k + part.length ≤ bytes.length) :
    bytes = bytes.take k ++ (part ++ bytes.drop (k + part.length)) := by
  have split : bytes.take k ++ ((bytes.drop k).take part.length ++ bytes.drop (k + part.length)) = bytes := by
    rw [← List.drop_drop, List.take_append_drop, List.take_append_drop]
  have before : (bytes.take k).length = k := by rw [List.length_take]; omega
  rw [← split, holds_append, holds_append, before] at holds
  have same : (bytes.drop k).take part.length = part :=
    holds.2.1.unique found (by rw [List.length_take, List.length_drop]; omega)
  rw [same] at split
  exact split.symm

/-- A string in memory at the place of another begins it, if it is no longer. -/
theorem Holds.exists_rest {bytes front : List (BitVec 8)} (holds : m.Holds place bytes) (here : m.Holds place front)
    (fits : front.length ≤ bytes.length) :
    ∃ rest, bytes = front ++ rest ∧ m.Holds (place + front.length) rest := by
  have split := holds.part (k := 0) here (by omega)
  rw [List.take_zero, List.nil_append, Nat.zero_add] at split
  refine ⟨_, split, ?_⟩
  rw [split, holds_append] at holds
  exact holds.2

end Memory

end RaryOS.Core
