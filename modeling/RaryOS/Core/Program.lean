import RaryOS.Core.Reading

/-! # Programs on memory

A program reads and writes bytes of a memory, and may run out of fuel. It records the places that it reads and
writes, and what it does not write keeps its value; the proof of this is a part of the program, so that every
program built from the operations has it. `Ensures` is total correctness with a footprint: the program comes to
an end, leaves a memory that satisfies the condition, and touches good places only. There is one rule for each
way of composing programs, and the frame rule for all of them.
-/

namespace RaryOS.Core

/-- The places of `length` bytes from `start` on. -/
def Span (start length place : ℕ) : Prop := start ≤ place ∧ place < start + length

theorem Span.widen {start length start' length' place : ℕ} (lower : start' ≤ start)
    (upper : start + length ≤ start' + length') (inside : Span start length place) : Span start' length' place :=
  ⟨lower.trans inside.1, inside.2.trans_le upper⟩

/-- What a program leaves: a value, if it came to an end, the memory, and the places that it read and wrote. -/
structure Outcome (α : Type) where
  value : Option α
  mem : Memory
  reads : List ℕ := []
  writes : List ℕ := []

/-- Run the rest on the memory and the value that are left. -/
def Outcome.andThen {α β : Type} (first : Outcome α) (rest : α → Memory → Outcome β) : Outcome β :=
  match first.value with
  | none => ⟨none, first.mem, first.reads, first.writes⟩
  | some a =>
    let second := rest a first.mem
    ⟨second.value, second.mem, first.reads ++ second.reads, first.writes ++ second.writes⟩

/-- A program changes nothing outside the places that it writes. -/
structure Prog (α : Type) where
  run : Memory → Outcome α
  frame : ∀ m place, place ∉ (run m).writes → (run m).mem place = m place

namespace Prog

variable {α β : Type}

theorem andThen_frame (x : Prog α) (f : α → Prog β) (m : Memory) (place : ℕ)
    (outside : place ∉ ((x.run m).andThen fun a => (f a).run).writes) :
    ((x.run m).andThen fun a => (f a).run).mem place = m place := by
  unfold Outcome.andThen at outside ⊢
  cases ended : (x.run m).value with
  | none =>
    rw [ended] at outside
    exact x.frame m place outside
  | some a =>
    rw [ended] at outside
    dsimp only at outside ⊢
    rw [List.mem_append, not_or] at outside
    exact ((f a).frame _ place outside.2).trans (x.frame m place outside.1)

instance : Monad Prog where
  pure a := ⟨fun m => ⟨some a, m, [], []⟩, fun _ _ _ => rfl⟩
  bind x f := ⟨fun m => (x.run m).andThen fun a => (f a).run, andThen_frame x f⟩

/-- Out of fuel. -/
def stuck : Prog α := ⟨fun m => ⟨none, m, [], []⟩, fun _ _ _ => rfl⟩

def read (place : ℕ) : Prog (BitVec 8) := ⟨fun m => ⟨some (m place), m, [place], []⟩, fun _ _ _ => rfl⟩

def write (place : ℕ) (byte : BitVec 8) : Prog Unit :=
  ⟨fun m => ⟨some (), m.store8 place byte, [], [place]⟩,
    fun m _ outside => m.store8_apply_of_ne byte (List.ne_of_not_mem_cons outside)⟩

/-- A computation that only reads is a program. -/
def ofReading (r : Memory → Reading (Option α)) : Prog α :=
  ⟨fun m => ⟨(r m).value, m, (r m).reads, []⟩, fun _ _ _ => rfl⟩

/-- Write a byte string. -/
def writeBytes : ℕ → List (BitVec 8) → Prog Unit
  | _, [] => return ()
  | place, byte :: rest => do
    write place byte
    writeBytes (place + 1) rest

/-- Step over bytes as long as a test holds. -/
def skipWhile (go : BitVec 8 → Bool) : ℕ → ℕ → Prog ℕ
  | 0, _ => stuck
  | fuel + 1, p => do
    let c ← read p
    if go c then skipWhile go fuel (p + 1) else return p

/-- Started at `m`, the program comes to an end with the condition, and touches good places only. -/
def Ensures (x : Prog α) (m : Memory) (canRead canWrite : ℕ → Prop) (post : α → Memory → Prop) : Prop :=
  ∃ a, (x.run m).value = some a ∧ post a (x.run m).mem ∧
    (∀ place ∈ (x.run m).reads, canRead place) ∧ ∀ place ∈ (x.run m).writes, canWrite place

section Rules

variable {m : Memory} {canRead canWrite : ℕ → Prop} {post : α → Memory → Prop} {x : Prog α}

theorem Ensures.pure {a : α} (done : post a m) : (Pure.pure a : Prog α).Ensures m canRead canWrite post :=
  ⟨a, rfl, done, List.forall_mem_nil _, List.forall_mem_nil _⟩

/-- Sequencing: what the first program leaves is what the second starts with. -/
theorem Ensures.bind {f : α → Prog β} {post : β → Memory → Prop} (mid : α → Memory → Prop)
    (first : x.Ensures m canRead canWrite mid)
    (second : ∀ a m', mid a m' → (f a).Ensures m' canRead canWrite post) :
    (x >>= f).Ensures m canRead canWrite post := by
  obtain ⟨a, ended, holds, reads, writes⟩ := first
  obtain ⟨b, ended', holds', reads', writes'⟩ := second a _ holds
  have run : (x >>= f).run m = ⟨((f a).run (x.run m).mem).value, ((f a).run (x.run m).mem).mem,
      (x.run m).reads ++ ((f a).run (x.run m).mem).reads, (x.run m).writes ++ ((f a).run (x.run m).mem).writes⟩ := by
    change (x.run m).andThen _ = _
    rw [Outcome.andThen, ended]
  unfold Ensures
  rw [run]
  exact ⟨b, ended', holds', List.forall_mem_append.mpr ⟨reads, reads'⟩, List.forall_mem_append.mpr ⟨writes, writes'⟩⟩

/-- A program that leaves the memory as it is, and of which the value is known. -/
theorem Ensures.bind_value {f : β → Prog α} {b : β} {y : Prog β}
    (first : y.Ensures m canRead canWrite fun b' m' => b' = b ∧ m' = m)
    (rest : (f b).Ensures m canRead canWrite post) : (y >>= f).Ensures m canRead canWrite post := by
  apply Ensures.bind _ first
  rintro _ _ ⟨rfl, rfl⟩
  exact rest

theorem Ensures.pure_bind {f : β → Prog α} {b : β} (rest : (f b).Ensures m canRead canWrite post) :
    ((Pure.pure b : Prog β) >>= f).Ensures m canRead canWrite post :=
  .bind_value (.pure ⟨rfl, rfl⟩) rest

theorem Ensures.read_bind {f : BitVec 8 → Prog α} {place : ℕ} (good : canRead place)
    (rest : (f (m place)).Ensures m canRead canWrite post) : (read place >>= f).Ensures m canRead canWrite post := by
  apply Ensures.bind fun byte m' => byte = m place ∧ m' = m
  · exact ⟨m place, rfl, ⟨rfl, rfl⟩, List.forall_mem_singleton.mpr good, List.forall_mem_nil _⟩
  · rintro _ _ ⟨rfl, rfl⟩
    exact rest

theorem Ensures.write_bind {f : Unit → Prog α} {place : ℕ} {byte : BitVec 8} (good : canWrite place)
    (rest : (f ()).Ensures (m.store8 place byte) canRead canWrite post) :
    (write place byte >>= f).Ensures m canRead canWrite post := by
  apply Ensures.bind fun _ m' => m' = m.store8 place byte
  · exact ⟨(), rfl, rfl, List.forall_mem_nil _, List.forall_mem_singleton.mpr good⟩
  · rintro ⟨⟩ _ rfl
    exact rest

theorem Ensures.write {place : ℕ} {byte : BitVec 8} {post : Unit → Memory → Prop} (good : canWrite place)
    (done : post () (m.store8 place byte)) : (write place byte).Ensures m canRead canWrite post :=
  ⟨(), rfl, done, List.forall_mem_nil _, List.forall_mem_singleton.mpr good⟩

/-- A weaker condition and a larger footprint. -/
theorem Ensures.mono {canRead' canWrite' : ℕ → Prop} {post' : α → Memory → Prop}
    (ensures : x.Ensures m canRead canWrite post) (reads : ∀ place, canRead place → canRead' place)
    (writes : ∀ place, canWrite place → canWrite' place) (weaker : ∀ a m', post a m' → post' a m') :
    x.Ensures m canRead' canWrite' post' := by
  obtain ⟨a, ended, holds, inReads, inWrites⟩ := ensures
  exact ⟨a, ended, weaker a _ holds, fun place member => reads place (inReads place member),
    fun place member => writes place (inWrites place member)⟩

/-- Two conditions on the same run. -/
theorem Ensures.and {post' : α → Memory → Prop} (first : x.Ensures m canRead canWrite post)
    (second : x.Ensures m canRead canWrite post') :
    x.Ensures m canRead canWrite fun a m' => post a m' ∧ post' a m' := by
  obtain ⟨a, ended, holds, reads, writes⟩ := first
  obtain ⟨b, ended', holds', -, -⟩ := second
  obtain rfl : a = b := Option.some.inj (ended.symm.trans ended')
  exact ⟨a, ended, ⟨holds, holds'⟩, reads, writes⟩

/-- The frame rule: places that may not be written keep their bytes. -/
theorem Ensures.framed (ensures : x.Ensures m canRead canWrite post) :
    x.Ensures m canRead canWrite fun a m' => post a m' ∧ ∀ place, ¬canWrite place → m' place = m place := by
  obtain ⟨a, ended, holds, reads, writes⟩ := ensures
  refine ⟨a, ended, ⟨holds, ?_⟩, reads, writes⟩
  intro place outside
  apply x.frame
  intro member
  exact outside (writes place member)

/-- A byte, and behind it what the rest writes there. -/
theorem Ensures.write_cons {f : Unit → Prog α} {place length : ℕ} {byte : BitVec 8} {bytes : List (BitVec 8)}
    (rest : (f ()).Ensures (m.store8 place byte) canRead (Span (place + 1) length)
      fun a m' => post a m' ∧ m'.Holds (place + 1) bytes) :
    (Prog.write place byte >>= f).Ensures m canRead (Span place (length + 1))
      fun a m' => post a m' ∧ m'.Holds place (byte :: bytes) := by
  apply Ensures.write_bind ⟨le_rfl, by omega⟩
  apply rest.framed.mono (fun _ good => good)
  · exact fun _ => Span.widen (by omega) (by omega)
  · rintro a m' ⟨⟨done, behind⟩, unchanged⟩
    refine ⟨done, ?_, behind⟩
    rw [unchanged place (by rintro ⟨lower, -⟩; omega)]
    exact m.store8_apply_same place byte

theorem Ensures.ofReading_bind {r : Memory → Reading (Option β)} {f : β → Prog α} {b : β}
    (value : (r m).value = some b) (good : ∀ place ∈ (r m).reads, canRead place)
    (rest : (f b).Ensures m canRead canWrite post) : (ofReading r >>= f).Ensures m canRead canWrite post := by
  apply Ensures.bind fun b' m' => b' = b ∧ m' = m
  · exact ⟨b, value, ⟨rfl, rfl⟩, good, List.forall_mem_nil _⟩
  · rintro _ _ ⟨rfl, rfl⟩
    exact rest

theorem Ensures.writeBytes (m : Memory) (canRead : ℕ → Prop) (place : ℕ) (bytes : List (BitVec 8)) :
    (Prog.writeBytes place bytes).Ensures m canRead (Span place bytes.length) fun _ m' => m'.Holds place bytes := by
  induction bytes generalizing m place with
  | nil => exact .pure trivial
  | cons byte rest ih =>
    rw [Prog.writeBytes, List.length_cons]
    have behind := (ih (m.store8 place byte) (place + 1)).mono (fun _ good => good) (fun _ good => good)
      fun _ _ holds => And.intro trivial holds
    apply (Ensures.write_cons behind).mono (fun _ good => good) (fun _ good => good)
    exact fun _ _ written => written.2

/-- The loop stops at the first byte that fails the test. -/
theorem Ensures.skipWhile {go : BitVec 8 → Bool} {run : List (BitVec 8)} {p fuel : ℕ} (holds : m.Holds p run)
    (goes : ∀ d ∈ run, go d = true) (stops : go (m (p + run.length)) = false) (enough : run.length < fuel) :
    (Prog.skipWhile go fuel p).Ensures m (Span p (run.length + 1)) (fun _ => False)
      fun q m' => q = p + run.length ∧ m' = m := by
  induction run generalizing p fuel with
  | nil =>
    obtain ⟨fuel, rfl⟩ := Nat.exists_eq_add_one_of_ne_zero (Nat.ne_zero_of_lt enough)
    rw [Prog.skipWhile]
    apply Prog.Ensures.read_bind ⟨le_rfl, by omega⟩
    rw [List.length_nil, Nat.add_zero] at stops
    rw [stops, if_neg Bool.false_ne_true]
    exact .pure ⟨rfl, rfl⟩
  | cons d run ih =>
    obtain ⟨fuel, rfl⟩ := Nat.exists_eq_add_one_of_ne_zero (Nat.ne_zero_of_lt enough)
    obtain ⟨here, further⟩ := holds
    rw [List.forall_mem_cons] at goes
    rw [List.length_cons] at enough stops ⊢
    rw [Nat.add_comm run.length, ← Nat.add_assoc] at stops
    rw [Prog.skipWhile]
    apply Prog.Ensures.read_bind ⟨le_rfl, by omega⟩
    rw [here, goes.1, if_pos rfl]
    apply (ih further goes.2 stops (by omega)).mono
    · exact fun _ => Span.widen (by omega) (by omega)
    · exact fun _ never => never
    · rintro q m' ⟨moved, same⟩
      exact ⟨by omega, same⟩

/-- In a string it stops where the test fails, at the terminator at the latest. -/
theorem Ensures.skipWhile_string {go : BitVec 8 → Bool} {run rest : List (BitVec 8)} {p fuel : ℕ}
    (holds : m.Holds p (run ++ (rest ++ [0]))) (goes : ∀ d ∈ run, go d = true)
    (stops : ∀ c tail, rest = c :: tail → go c = false) (zero : go 0 = false) (enough : run.length < fuel) :
    (Prog.skipWhile go fuel p).Ensures m (Span p (run.length + 1)) (fun _ => False)
      fun q m' => q = p + run.length ∧ m' = m := by
  obtain ⟨inRun, behind⟩ := (Memory.holds_append _ _).mp holds
  have ended : go (m (p + run.length)) = false := by
    rcases rest with _ | ⟨c, tail⟩
    · rw [show m (p + run.length) = 0 from behind.1]
      exact zero
    · rw [show m (p + run.length) = c from behind.1]
      exact stops c tail rfl
  exact .skipWhile inRun goes ended enough

end Rules

end Prog

end RaryOS.Core
