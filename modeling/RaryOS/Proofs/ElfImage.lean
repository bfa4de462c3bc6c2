import RaryOS.Proofs.Elf

/-! # Loading an image that lies in memory

As long as nothing of the image is overwritten, every header that `elf_load` reads is the one of the file.
So an iteration either writes to the image or does what the program header in the file says, and the whole
loop is described by the table of the file.
-/

namespace RaryOS.Model

open RaryOS.Core

/-- The address is one of the image. -/
def InImage (elfData size x : ℕ) : Prop := elfData ≤ x ∧ x < elfData + size

/-- The memory has the bytes of the file at `elf_data`. -/
def HoldsFile (file : Memory) (elfData size : ℕ) (m : Memory) : Prop :=
  ∀ k < size, fileAt m elfData k = file k

section Holds

variable {file m : Memory} {elfData size : ℕ}

theorem HoldsFile.store8 (holds : HoldsFile file elfData size m) (space : elfData + size ≤ 2 ^ 64) {x : ℕ}
    (apart : ¬InImage elfData size x) (value : BitVec 8) : HoldsFile file elfData size (m.store8 x value) := by
  intro k inside
  rw [← holds k inside, fileAt, fileAt, Memory.store8_apply_of_ne]
  rintro rfl
  rw [Nat.mod_eq_of_lt (by omega)] at apart
  exact apart ⟨Nat.le_add_right _ _, Nat.add_lt_add_left inside _⟩

theorem HoldsFile.load (holds : HoldsFile file elfData size m) {offset width : ℕ} (inside : offset + width ≤ size) :
    (fileAt m elfData).load offset width = file.load offset width :=
  Memory.load_congr fun k _ upper => holds k (by omega)

theorem HoldsFile.header (holds : HoldsFile file elfData size m) (room : 64 ≤ size) :
    Elf64Header.read (fileAt m elfData) = Elf64Header.read file := by
  have part (offset width : ℕ) (inside : offset + width ≤ 64) := holds.load (inside.trans room)
  simp only [Elf64Header.read, part 0 1 (by decide), part 1 1 (by decide), part 2 1 (by decide),
    part 3 1 (by decide), part 18 2 (by decide), part 24 8 (by decide), part 32 8 (by decide),
    part 54 2 (by decide), part 56 2 (by decide)]

theorem HoldsFile.phdr (holds : HoldsFile file elfData size m) {offset : ℕ} (room : offset + 56 ≤ size) :
    Elf64Phdr.read (fileAt m elfData) offset = Elf64Phdr.read file offset := by
  have part (k width : ℕ) (inside : k + width ≤ 56) :
      (fileAt m elfData).load (offset + k) width = file.load (offset + k) width := holds.load (by omega)
  have first := part 0 4 (by decide)
  rw [Nat.add_zero] at first
  simp only [Elf64Phdr.read, first, part 4 4 (by decide), part 8 8 (by decide), part 16 8 (by decide),
    part 32 8 (by decide), part 40 8 (by decide)]

end Holds

/-! ## The copying loops -/

section StoreBytes

variable {byte : ℕ → BitVec 8} {dst start stop : ℕ} {t : TracedMemory}

theorem storeBytes_of_le (done : stop ≤ start) : storeBytes byte dst start stop t = t := by
  rw [storeBytes, Nat.sub_eq_zero_of_le done, List.range'_zero, List.foldl_nil]

theorem storeBytes_of_lt (more : start < stop) :
    storeBytes byte dst start stop t =
      storeBytes byte dst (start + 1) stop (t.store8 ((dst + start) % 2 ^ 64) (byte start)) := by
  rw [storeBytes, storeBytes, show stop - start = stop - (start + 1) + 1 by omega, List.range'_succ,
    List.foldl_cons]

theorem storeBytes_congr {byte' : ℕ → BitVec 8} (same : ∀ j, start ≤ j → j < stop → byte j = byte' j) :
    storeBytes byte dst start stop t = storeBytes byte' dst start stop t := by
  rw [storeBytes, storeBytes]
  apply List.foldl_ext
  intro t j member
  rw [List.mem_range'_1] at member
  rw [same j member.1 (by omega)]

/-- A range of addresses that does not wrap around, byte by byte. -/
theorem storeBytes_mem (straight : dst + stop ≤ 2 ^ 64) (x : ℕ) :
    (storeBytes byte dst start stop t).mem x =
      if dst + start ≤ x ∧ x < dst + stop then byte (x - dst) else t.mem x := by
  induction more : stop - start generalizing start t with
  | zero => rw [storeBytes_of_le (by omega), if_neg (by omega)]
  | succ more ih =>
    rw [storeBytes_of_lt (by omega), ih (by omega), Nat.mod_eq_of_lt (by omega)]
    rcases Nat.lt_trichotomy x (dst + start) with below | rfl | above
    · rw [if_neg (by omega), if_neg (by omega)]
      exact Memory.store8_apply_of_ne _ _ (by omega)
    · rw [if_neg (by omega), if_pos (by omega), Nat.add_sub_cancel_left]
      exact Memory.store8_apply_same ..
    · rw [show (t.store8 (dst + start) (byte start)).mem x = t.mem x from
        Memory.store8_apply_of_ne _ _ (by omega)]
      exact if_congr (by omega) rfl rfl

end StoreBytes

section StoreWhile

variable {file : Memory} {elfData size : ℕ} {bound : Memory → ℕ} {byte : Memory → ℕ → BitVec 8}
  {dst fuel start stop : ℕ} {t : TracedMemory}

theorem storeWhile_written_mono {x : ℕ} (member : x ∈ t.written) :
    x ∈ (storeWhile bound byte dst fuel start t).written := by
  induction fuel generalizing start t with
  | zero => exact member
  | succ fuel ih =>
    rw [storeWhile]
    split
    · exact ih (List.mem_cons_of_mem _ member)
    · exact member

section Bounded

variable (byte dst fuel start) (space : elfData + size ≤ 2 ^ 64)
  (bounds : ∀ m, HoldsFile file elfData size m → bound m = stop) (enough : stop ≤ start + fuel)

include space bounds enough

/-- A loop that stays clear of the image stores one byte after the other, each read from a memory that still
has the image. -/
theorem storeWhile_eq (holds : HoldsFile file elfData size t.mem)
    (apart : ∀ j, start ≤ j → j < stop → ¬InImage elfData size ((dst + j) % 2 ^ 64)) :
    ∃ stored : ℕ → BitVec 8,
      storeWhile bound byte dst fuel start t = storeBytes stored dst start stop t ∧
      HoldsFile file elfData size (storeBytes stored dst start stop t).mem ∧
      ∀ j, start ≤ j → j < stop → ∃ m, HoldsFile file elfData size m ∧ stored j = byte m j := by
  induction fuel generalizing start t with
  | zero =>
    refine ⟨fun _ => 0, ?_, ?_, fun j lower upper => absurd upper (by omega)⟩
    · rw [storeBytes_of_le (by omega)]
      rfl
    · rw [storeBytes_of_le (by omega)]
      exact holds
  | succ fuel ih =>
    rw [storeWhile, bounds t.mem holds]
    split
    · next more =>
      have kept := holds.store8 space (apart start le_rfl more) (byte t.mem start)
      have later : HoldsFile file elfData size (t.store8 ((dst + start) % 2 ^ 64) (byte t.mem start)).mem := kept
      obtain ⟨stored, same, after, source⟩ :=
        ih (start + 1) (by omega) later fun j lower upper => apart j (by omega) upper
      -- The first byte is the one read here, the others are those of the rest.
      have step : storeBytes (fun j => if j = start then byte t.mem start else stored j) dst start stop t =
          storeBytes stored dst (start + 1) stop (t.store8 ((dst + start) % 2 ^ 64) (byte t.mem start)) := by
        rw [storeBytes_of_lt more, if_pos rfl]
        exact storeBytes_congr fun j lower _ => if_neg (by omega)
      refine ⟨fun j => if j = start then byte t.mem start else stored j, same.trans step.symm, ?_, ?_⟩
      · rw [step]
        exact after
      · intro j lower upper
        by_cases first : j = start
        · exact ⟨t.mem, holds, by simp only [first, if_true]⟩
        · simp only [if_neg first]
          exact source j (by omega) upper
    · next done =>
      refine ⟨fun _ => 0, ?_, ?_, fun j lower upper => absurd upper (by omega)⟩
      · rw [storeBytes_of_le (by omega)]
      · rw [storeBytes_of_le (by omega)]
        exact holds

/-- A loop that did not write to the image has stayed clear of it all the time. -/
theorem storeWhile_apart (holds : HoldsFile file elfData size t.mem)
    (clean : ∀ x ∈ (storeWhile bound byte dst fuel start t).written, ¬InImage elfData size x) :
    ∀ j, start ≤ j → j < stop → ¬InImage elfData size ((dst + j) % 2 ^ 64) := by
  induction fuel generalizing start t with
  | zero => intro j lower upper; omega
  | succ fuel ih =>
    intro j lower upper
    rw [storeWhile, bounds t.mem holds, if_pos (by omega)] at clean
    have first := clean _ (storeWhile_written_mono (List.mem_cons_self ..))
    rcases Nat.eq_or_lt_of_le lower with rfl | later
    · exact first
    · exact ih (start + 1) (by omega) (holds.store8 space first _) clean j later upper

end Bounded

end StoreWhile

/-! ## The loop over the program headers -/

/-- A segment without wrapping around, with its file part inside the file and inside the segment. -/
structure Elf64Phdr.Loadable (ph : Elf64Phdr) (size : ℕ) : Prop where
  sizes : ph.pFilesz ≤ ph.pMemsz
  fileInside : ph.pOffset + ph.pFilesz ≤ size
  straight : ph.pVaddr + ph.pMemsz ≤ 2 ^ 64

/-- A program header in the file whose segment, if it is loaded, is clear of the image. -/
structure EntryApart (file : Memory) (elfData size i : ℕ) : Prop where
  small : i * (Elf64Header.read file).ePhentsize < 2 ^ 31
  apart : ((Elf64Header.read file).entry file i).pType = ptLoad →
    ∀ x, ((Elf64Header.read file).entry file i).Covers x → ¬InImage elfData size x

/-- The memory with a segment in its place. -/
def placeSegment (file : Memory) (m : Memory) (ph : Elf64Phdr) : Memory := fun x =>
  if ph.pType = ptLoad ∧ ph.InRange x then ph.byteAt file x else m x

theorem Elf64Phdr.read_pFilesz_lt (file : Memory) (offset : ℕ) : (Elf64Phdr.read file offset).pFilesz < 2 ^ 64 :=
  file.load64_lt _

theorem Elf64Phdr.read_pMemsz_lt (file : Memory) (offset : ℕ) : (Elf64Phdr.read file offset).pMemsz < 2 ^ 64 :=
  file.load64_lt _

section Loop

variable {file : Memory} {elfData size fuel i : ℕ} {t t' : TracedMemory}

variable (image : ElfImage file elfData size)

include image

/-- An iteration that reads its header from the file. -/
theorem elfLoadStep_eq (holds : HoldsFile file elfData size t.mem) (entry : i < (Elf64Header.read file).ePhnum)
    (small : i * (Elf64Header.read file).ePhentsize < 2 ^ 31) :
    elfLoadStep elfData i t =
      let place := (Elf64Header.read file).ePhoff + i * (Elf64Header.read file).ePhentsize
      let ph := (Elf64Header.read file).entry file i
      some (if ph.pType ≠ ptLoad then t
        else zeroRest elfData place ph.pVaddr (copyFilePart elfData place ph.pVaddr ph.pOffset t)) := by
  have room := image.table i entry
  have space := image.space
  have offset : ((Elf64Header.read file).ePhoff + i * (Elf64Header.read file).ePhentsize) % 2 ^ 64 =
      (Elf64Header.read file).ePhoff + i * (Elf64Header.read file).ePhentsize := Nat.mod_eq_of_lt (by omega)
  simp only [elfLoadStep, holds.header image.header, intProduct, if_pos small, Option.map_some, offset, phdrAt,
    holds.phdr room]
  rfl

/-- What an iteration does whose segment is clear of the image. -/
structure StepDone (file : Memory) (elfData size : ℕ) (ph : Elf64Phdr) (t t' : TracedMemory) : Prop where
  holds : HoldsFile file elfData size t'.mem
  written : ∀ x, x ∈ t'.written ↔ x ∈ t.written ∨ (ph.pType = ptLoad ∧ ph.Covers x)
  skip : ph.pType ≠ ptLoad → t'.mem = placeSegment file t.mem ph
  mem : ph.Loadable size → t'.mem = placeSegment file t.mem ph

/-- The two loops of a segment that is clear of the image. -/
theorem loops_done {place : ℕ} {ph : Elf64Phdr} (holds : HoldsFile file elfData size t.mem)
    (header : ∀ m, HoldsFile file elfData size m → phdrAt elfData place m = ph) (load : ph.pType = ptLoad)
    (fileszLt : ph.pFilesz < 2 ^ 64) (memszLt : ph.pMemsz < 2 ^ 64)
    (clear : ∀ x, ph.Covers x → ¬InImage elfData size x) :
    StepDone file elfData size ph t
      (zeroRest elfData place ph.pVaddr (copyFilePart elfData place ph.pVaddr ph.pOffset t)) := by
  have space := image.space
  have target : ∀ j < max ph.pFilesz ph.pMemsz, ¬InImage elfData size ((ph.pVaddr + j) % 2 ^ 64) :=
    fun j bound => clear _ ⟨j, bound, rfl⟩
  obtain ⟨stored, copies, kept, source⟩ := storeWhile_eq
    (fun m j => fileAt m elfData ((ph.pOffset + j) % 2 ^ 64)) ph.pVaddr (2 ^ 64) 0 space
    (fun m holds => congrArg Elf64Phdr.pFilesz (header m holds)) (by omega) holds
    (fun j _ upper => target j (by omega))
  rw [copyFilePart, copies, zeroRest, header _ kept]
  obtain ⟨zeros, zeroes, after, zero⟩ := storeWhile_eq (fun _ _ => 0) ph.pVaddr (2 ^ 64) ph.pFilesz space
    (fun m holds => congrArg Elf64Phdr.pMemsz (header m holds)) (by omega) kept
    (fun j _ upper => target j (by omega))
  rw [zeroes]
  refine ⟨after, fun x => ?_, absurd load, fun loadable => ?_⟩
  · simp only [storeBytes_written, load, true_and, ph.covers_iff, or_assoc]
  · obtain ⟨sizes, fileInside, straight⟩ := loadable
    apply funext
    intro x
    have placed : placeSegment file t.mem ph x = if ph.InRange x then ph.byteAt file x else t.mem x := by
      simp only [placeSegment, load, true_and]
    rw [storeBytes_mem straight, storeBytes_mem (by omega), placed]
    rcases Decidable.em (ph.InRange x) with range | other
    · rw [if_pos range, Elf64Phdr.byteAt]
      obtain ⟨lower, upper⟩ := range
      rcases Nat.lt_or_ge (x - ph.pVaddr) ph.pFilesz with copied | zeroed
      · obtain ⟨m, holds, value⟩ := source (x - ph.pVaddr) (by omega) copied
        rw [if_neg (by omega), if_pos (by omega), if_pos copied, value, Nat.mod_eq_of_lt (by omega)]
        exact holds _ (by omega)
      · obtain ⟨_, _, value⟩ := zero (x - ph.pVaddr) zeroed (by omega)
        rw [if_pos (by omega), if_neg (by omega), value]
    · have outside : ¬(ph.pVaddr ≤ x ∧ x < ph.pVaddr + ph.pMemsz) := other
      rw [if_neg other, if_neg (by omega), if_neg (by omega)]

theorem elfLoadStep_done (holds : HoldsFile file elfData size t.mem) (entry : i < (Elf64Header.read file).ePhnum)
    (apart : EntryApart file elfData size i) :
    ∃ t', elfLoadStep elfData i t = some t' ∧
      StepDone file elfData size ((Elf64Header.read file).entry file i) t t' := by
  refine ⟨_, elfLoadStep_eq image holds entry apart.small, ?_⟩
  split
  · next other =>
    have same : t.mem = placeSegment file t.mem ((Elf64Header.read file).entry file i) :=
      funext fun x => (if_neg fun load => other load.1).symm
    refine ⟨holds, fun x => ?_, fun _ => same, fun _ => same⟩
    simp only [other, false_and, or_false]
  · next load =>
    rw [not_not] at load
    exact loops_done image holds (fun m holds => holds.phdr (image.table i entry)) load
      (Elf64Phdr.read_pFilesz_lt ..) (Elf64Phdr.read_pMemsz_lt ..) (apart.apart load)

/-- What the iterations from `i` on do, when all segments are clear of the image. -/
structure LoopDone (file : Memory) (elfData size i : ℕ) (t t' : TracedMemory) : Prop where
  holds : HoldsFile file elfData size t'.mem
  written : ∀ x, x ∈ t'.written ↔ x ∈ t.written ∨
    ∃ k, i ≤ k ∧ k < (Elf64Header.read file).ePhnum ∧ ((Elf64Header.read file).entry file k).pType = ptLoad ∧
      ((Elf64Header.read file).entry file k).Covers x
  mem : (∀ k < (Elf64Header.read file).ePhnum, ((Elf64Header.read file).entry file k).pType = ptLoad →
      ((Elf64Header.read file).entry file k).Loadable size) →
    t'.mem = ((List.range' i ((Elf64Header.read file).ePhnum - i)).map
      ((Elf64Header.read file).entry file)).foldl (placeSegment file) t.mem

omit image in
/-- After the last program header. -/
theorem LoopDone.finished (holds : HoldsFile file elfData size t.mem)
    (done : (Elf64Header.read file).ePhnum ≤ i) : LoopDone file elfData size i t t := by
  refine ⟨holds, fun x => ⟨Or.inl, ?_⟩, fun _ => ?_⟩
  · rintro (old | ⟨k, lower, upper, _⟩)
    · exact old
    · omega
  · rw [Nat.sub_eq_zero_of_le done]
    rfl

omit image in
/-- One iteration, and then the others. -/
theorem LoopDone.step {mid : TracedMemory} (more : i < (Elf64Header.read file).ePhnum)
    (once : StepDone file elfData size ((Elf64Header.read file).entry file i) t mid)
    (rest : LoopDone file elfData size (i + 1) mid t') : LoopDone file elfData size i t t' := by
  refine ⟨rest.holds, fun x => ?_, fun loadable => ?_⟩
  · rw [rest.written, once.written, or_assoc]
    refine or_congr_right ⟨?_, ?_⟩
    · rintro (⟨load, covers⟩ | ⟨k, lower, upper, load, covers⟩)
      · exact ⟨i, le_rfl, more, load, covers⟩
      · exact ⟨k, by omega, upper, load, covers⟩
    · rintro ⟨k, lower, upper, load, covers⟩
      rcases Nat.eq_or_lt_of_le lower with rfl | later
      · exact Or.inl ⟨load, covers⟩
      · exact Or.inr ⟨k, later, upper, load, covers⟩
  · have first : mid.mem = placeSegment file t.mem ((Elf64Header.read file).entry file i) := by
      by_cases load : ((Elf64Header.read file).entry file i).pType = ptLoad
      · exact once.mem (loadable i more load)
      · exact once.skip load
    rw [rest.mem loadable, first,
      show (Elf64Header.read file).ePhnum - i = (Elf64Header.read file).ePhnum - (i + 1) + 1 by omega,
      List.range'_succ, List.map_cons, List.foldl_cons]

theorem elfLoadLoop_done (holds : HoldsFile file elfData size t.mem)
    (apart : ∀ k, i ≤ k → k < (Elf64Header.read file).ePhnum → EntryApart file elfData size k)
    (enough : (Elf64Header.read file).ePhnum ≤ i + fuel) :
    ∃ t', elfLoadLoop elfData fuel i t = some t' ∧ LoopDone file elfData size i t t' := by
  induction fuel generalizing i t with
  | zero => exact ⟨t, rfl, .finished holds enough⟩
  | succ fuel ih =>
    rw [elfLoadLoop, holds.header image.header]
    split
    · next more =>
      obtain ⟨mid, step, once⟩ := elfLoadStep_done image holds more (apart i le_rfl more)
      obtain ⟨t', loop, rest⟩ := ih (i := i + 1) once.holds (fun k lower upper => apart k (by omega) upper)
        (by omega)
      rw [step, Option.bind_some]
      exact ⟨t', loop, rest.step more once⟩
    · next done => exact ⟨t, rfl, .finished holds (by omega)⟩

/-! ## Runs that did not write to the image -/

omit image in
theorem elfLoadStep_written_mono (step : elfLoadStep elfData i t = some t') {x : ℕ} (member : x ∈ t.written) :
    x ∈ t'.written := by
  rw [elfLoadStep, Option.map_eq_some_iff] at step
  obtain ⟨product, _, rfl⟩ := step
  simp only
  split
  · exact member
  · exact storeWhile_written_mono (storeWhile_written_mono member)

omit image in
theorem elfLoadLoop_written_mono (loop : elfLoadLoop elfData fuel i t = some t') {x : ℕ}
    (member : x ∈ t.written) : x ∈ t'.written := by
  induction fuel generalizing i t with
  | zero =>
    rw [elfLoadLoop, Option.some.injEq] at loop
    exact loop ▸ member
  | succ fuel ih =>
    rw [elfLoadLoop] at loop
    split at loop
    · obtain ⟨mid, step, rest⟩ := Option.bind_eq_some_iff.mp loop
      exact ih rest (elfLoadStep_written_mono step member)
    · rw [Option.some.injEq] at loop
      exact loop ▸ member

theorem loops_apart {place : ℕ} {ph : Elf64Phdr} (holds : HoldsFile file elfData size t.mem)
    (header : ∀ m, HoldsFile file elfData size m → phdrAt elfData place m = ph)
    (fileszLt : ph.pFilesz < 2 ^ 64) (memszLt : ph.pMemsz < 2 ^ 64)
    (clean : ∀ x ∈ (zeroRest elfData place ph.pVaddr (copyFilePart elfData place ph.pVaddr ph.pOffset t)).written,
      ¬InImage elfData size x) : ∀ x, ph.Covers x → ¬InImage elfData size x := by
  have space := image.space
  have filesz := fun m holds => congrArg Elf64Phdr.pFilesz (header m holds)
  have copied := storeWhile_apart
    (fun m j => fileAt m elfData ((ph.pOffset + j) % 2 ^ 64)) ph.pVaddr (2 ^ 64) 0 space filesz (by omega) holds
    fun x member => clean x (storeWhile_written_mono member)
  obtain ⟨stored, copies, kept, _⟩ := storeWhile_eq
    (fun m j => fileAt m elfData ((ph.pOffset + j) % 2 ^ 64)) ph.pVaddr (2 ^ 64) 0 space filesz (by omega) holds copied
  rw [copyFilePart, copies, zeroRest, header _ kept] at clean
  have zeroed := storeWhile_apart (fun _ _ => 0) ph.pVaddr (2 ^ 64) ph.pFilesz space
    (fun m holds => congrArg Elf64Phdr.pMemsz (header m holds)) (by omega) kept clean
  intro x covers
  rcases (ph.covers_iff x).mp covers with ⟨j, lower, upper, rfl⟩ | ⟨j, lower, upper, rfl⟩
  · exact copied j lower upper
  · exact zeroed j lower upper

/-- An iteration that is defined and leaves the image alone has a segment that is clear of it. -/
theorem elfLoadStep_apart (holds : HoldsFile file elfData size t.mem) (entry : i < (Elf64Header.read file).ePhnum)
    (step : elfLoadStep elfData i t = some t') (clean : ∀ x ∈ t'.written, ¬InImage elfData size x) :
    EntryApart file elfData size i := by
  have small : i * (Elf64Header.read file).ePhentsize < 2 ^ 31 := by
    by_contra large
    rw [elfLoadStep, holds.header image.header] at step
    simp only [intProduct, if_neg large, Option.map_none, reduceCtorEq] at step
  refine ⟨small, fun load => ?_⟩
  rw [elfLoadStep_eq image holds entry small, Option.some.injEq] at step
  simp only [load, ne_eq, not_true_eq_false, if_false] at step
  subst step
  exact loops_apart image holds (fun m holds => holds.phdr (image.table i entry))
    (Elf64Phdr.read_pFilesz_lt ..) (Elf64Phdr.read_pMemsz_lt ..) clean

/-- And so has every iteration of a run of the loop. -/
theorem elfLoadLoop_apart (holds : HoldsFile file elfData size t.mem)
    (enough : (Elf64Header.read file).ePhnum ≤ i + fuel) (loop : elfLoadLoop elfData fuel i t = some t')
    (clean : ∀ x ∈ t'.written, ¬InImage elfData size x) :
    ∀ k, i ≤ k → k < (Elf64Header.read file).ePhnum → EntryApart file elfData size k := by
  induction fuel generalizing i t with
  | zero => intro k lower upper; omega
  | succ fuel ih =>
    intro k lower upper
    rw [elfLoadLoop, holds.header image.header, if_pos (by omega)] at loop
    obtain ⟨mid, step, rest⟩ := Option.bind_eq_some_iff.mp loop
    have first := elfLoadStep_apart image holds (by omega) step fun x member =>
      clean x (elfLoadLoop_written_mono rest member)
    rcases Nat.eq_or_lt_of_le lower with rfl | later
    · exact first
    · obtain ⟨mid', step', once⟩ := elfLoadStep_done image holds (by omega) first
      obtain rfl := Option.some.inj (step.symm.trans step')
      exact ih once.holds (by omega) rest k later upper

end Loop

end RaryOS.Model
