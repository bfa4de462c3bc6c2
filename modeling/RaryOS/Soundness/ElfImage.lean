import RaryOS.Proofs.ElfImage
import RaryOS.Soundness.ElfLoad

/-! # What `elf_load` makes of an image

The segments are placed one after the other, so the last one that has an address decides on its byte. A
segment is written up to the larger of its two sizes: nothing checks that `p_filesz` is not above
`p_memsz`, and what is copied beyond may belong to no segment at all.
-/

namespace RaryOS.Soundness

open RaryOS.Core RaryOS.Model

/-- The run is defined, and what it writes besides `*out_entry` is in the ranges of the segments. -/
def WritesInside (m : Memory) (elfData outEntry : ℕ) : Prop :=
  ∃ result t, elfLoadIn elfData outEntry ⟨m, []⟩ = some (result, t) ∧
    ∀ x ∈ t.written, ∃ ph ∈ tableSegments (fileAt m elfData), ph.InRange x

/-- The offsets of the program headers of an accepted file fit an `int`, and what a segment has beyond its
memory size, or beyond the end of the address space, falls into the ranges of the segments. -/
structure SegmentsContained (file : Memory) : Prop where
  small : elfCheck (Elf64Header.read file) = .ok () →
    ∀ i < (Elf64Header.read file).ePhnum, i * (Elf64Header.read file).ePhentsize < 2 ^ 31
  beyond : ∀ ph ∈ tableSegments file, ∀ j < max ph.pFilesz ph.pMemsz,
    ph.pMemsz ≤ j ∨ 2 ^ 64 ≤ ph.pVaddr + j →
      ∃ ph' ∈ tableSegments file, ph'.InRange ((ph.pVaddr + j) % 2 ^ 64)

/-- So it is when no segment has more in the file than in memory and none wraps around. -/
theorem SegmentsContained.of_sizes {file : Memory}
    (small : elfCheck (Elf64Header.read file) = .ok () →
      ∀ i < (Elf64Header.read file).ePhnum, i * (Elf64Header.read file).ePhentsize < 2 ^ 31)
    (sizes : ∀ ph ∈ tableSegments file, ph.pFilesz ≤ ph.pMemsz ∧ ph.pVaddr + ph.pMemsz ≤ 2 ^ 64) :
    SegmentsContained file where
  small := small
  beyond ph member j bound past := by
    obtain ⟨ordered, straight⟩ := sizes ph member
    omega

/-- No segment's range meets the image. -/
def TargetsApart (file : Memory) (elfData size : ℕ) : Prop :=
  ∀ ph ∈ tableSegments file, ∀ x, ph.InRange x → ¬InImage elfData size x

section Table

variable {file : Memory}

theorem tableSegments_of_ok (accepted : elfCheck (Elf64Header.read file) = .ok ()) :
    tableSegments file = ((List.range (Elf64Header.read file).ePhnum).map
      ((Elf64Header.read file).entry file)).filter (·.pType = ptLoad) := by
  simp only [tableSegments, accepted]

theorem tableSegments_of_error {e : ElfError} (rejected : elfCheck (Elf64Header.read file) = .error e) :
    tableSegments file = [] := by
  simp only [tableSegments, rejected]

theorem mem_tableSegments (accepted : elfCheck (Elf64Header.read file) = .ok ()) (ph : Elf64Phdr) :
    ph ∈ tableSegments file ↔
      ∃ k < (Elf64Header.read file).ePhnum, (Elf64Header.read file).entry file k = ph ∧ ph.pType = ptLoad := by
  rw [tableSegments_of_ok accepted, List.mem_filter, List.mem_map, decide_eq_true_iff]
  simp only [List.mem_range, ← exists_and_right, and_assoc]

/-- Segments that are not loaded do not matter. -/
theorem foldl_placeSegment_filter (segments : List Elf64Phdr) (m : Memory) :
    segments.foldl (placeSegment file) m =
      (segments.filter (·.pType = ptLoad)).foldl (placeSegment file) m := by
  induction segments generalizing m with
  | nil => rfl
  | cons ph rest ih =>
    rw [List.foldl_cons, ih, List.filter_cons]
    rcases Decidable.em (ph.pType = ptLoad) with load | other
    · rw [if_pos (decide_eq_true load), List.foldl_cons]
    · have same : placeSegment file m ph = m := funext fun x => if_neg fun placed => other placed.1
      rw [same, if_neg (by simpa using other)]

/-- An address that no segment has. -/
theorem foldl_placeSegment_of_none {segments : List Elf64Phdr} {m : Memory} {x : ℕ}
    (none : ∀ ph ∈ segments, ¬ph.InRange x) : segments.foldl (placeSegment file) m x = m x := by
  induction segments generalizing m with
  | nil => rfl
  | cons ph rest ih =>
    rw [List.foldl_cons, ih fun other member => none other (List.mem_cons_of_mem ph member)]
    exact if_neg fun placed => none ph (List.mem_cons_self ..) placed.2

/-- The last segment that has the address. -/
theorem foldl_placeSegment_of_last {before after : List Elf64Phdr} {ph : Elf64Phdr} {m : Memory} {x : ℕ}
    (load : ph.pType = ptLoad) (range : ph.InRange x) (last : ∀ later ∈ after, ¬later.InRange x) :
    (before ++ ph :: after).foldl (placeSegment file) m x = ph.byteAt file x := by
  rw [List.foldl_append, List.foldl_cons, foldl_placeSegment_of_none last]
  exact if_pos ⟨load, range⟩

end Table

section Image

variable {m : Memory} {elfData outEntry size : ℕ} (image : ElfImage (fileAt m elfData) elfData size)

include image

/-- The loop over a table of segments that are clear of the image. -/
theorem elfLoadLoop_of_apart
    (apart : ∀ k < (Elf64Header.read (fileAt m elfData)).ePhnum, EntryApart (fileAt m elfData) elfData size k) :
    ∃ t, elfLoadLoop elfData (2 ^ 16) 0 ⟨m, []⟩ = some t ∧ LoopDone (fileAt m elfData) elfData size 0 ⟨m, []⟩ t := by
  have few : (Elf64Header.read (fileAt m elfData)).ePhnum < 2 ^ 16 := Memory.load_lt _ _ 2
  exact elfLoadLoop_done image (fun _ _ => rfl) (fun k _ upper => apart k upper) (by omega)

/-- For every image accepted by the checks, with its program headers inside, their offsets below 2^31, sizes in
order, file parts inside the image and ranges that neither wrap around nor meet the image: `elf_load` returns 0,
each address has the byte of the last segment that has it, all others are unchanged, and `*out_entry` is
`e_entry`. -/
theorem elf_loads (accepted : elfCheck (Elf64Header.read (fileAt m elfData)) = .ok ())
    (small : (Elf64Header.read (fileAt m elfData)).ePhnum * (Elf64Header.read (fileAt m elfData)).ePhentsize < 2 ^ 31)
    (loadable : ∀ ph ∈ tableSegments (fileAt m elfData), ph.Loadable size)
    (targets : TargetsApart (fileAt m elfData) elfData size) :
    ∃ t, elfLoadIn elfData outEntry ⟨m, []⟩ = some (.ok (), t) ∧
      t.mem.load64 outEntry = (Elf64Header.read (fileAt m elfData)).eEntry ∧
      ∀ x, (x < outEntry ∨ outEntry + 8 ≤ x) →
        (∀ before ph after, tableSegments (fileAt m elfData) = before ++ ph :: after → ph.InRange x →
          (∀ later ∈ after, ¬later.InRange x) → t.mem x = ph.byteAt (fileAt m elfData) x) ∧
        ((∀ ph ∈ tableSegments (fileAt m elfData), ¬ph.InRange x) → t.mem x = m x) := by
  have segment := mem_tableSegments accepted
  have apart : ∀ k < (Elf64Header.read (fileAt m elfData)).ePhnum,
      EntryApart (fileAt m elfData) elfData size k := by
    refine fun k entry => ⟨Nat.lt_of_le_of_lt (Nat.mul_le_mul_right _ (Nat.le_of_lt entry)) small, fun load x => ?_⟩
    have member := (segment _).mpr ⟨k, entry, rfl, load⟩
    obtain ⟨sizes, _, straight⟩ := loadable _ member
    rintro ⟨j, bound, rfl⟩
    rw [Nat.mod_eq_of_lt (by omega)]
    exact targets _ member _ ⟨by omega, by omega⟩
  obtain ⟨t, loop, done⟩ := elfLoadLoop_of_apart image apart
  have mem := done.mem fun k entry load => loadable _ ((segment _).mpr ⟨k, entry, rfl, load⟩)
  rw [Nat.sub_zero, ← List.range_eq_range', foldl_placeSegment_filter, ← tableSegments_of_ok accepted] at mem
  have header := done.holds.header image.header
  obtain ⟨final, run, stored⟩ : ∃ final, elfLoadIn elfData outEntry ⟨m, []⟩ = some (.ok (), final) ∧
      final.mem = t.mem.store64 outEntry (Elf64Header.read (fileAt m elfData)).eEntry := by
    refine ⟨{ t with mem := t.mem.store64 outEntry (Elf64Header.read (fileAt m elfData)).eEntry }, ?_, rfl⟩
    simp only [elfLoadIn, accepted, loop, Option.map_some, header]
  refine ⟨final, run, ?_, fun x outside => ?_⟩
  · rw [stored, Memory.load64_store64_same]
    exact Nat.mod_eq_of_lt (Memory.load64_lt _ _)
  · have same : final.mem x = t.mem x := by
      rw [stored]
      exact Memory.store_apply_of_outside _ _ outside
    rw [same, mem]
    refine ⟨fun before ph after segments range last => ?_, foldl_placeSegment_of_none⟩
    have load := ((segment ph).mp (segments ▸ List.mem_append_right _ (List.mem_cons_self ..))).choose_spec.2.2
    rw [segments]
    exact foldl_placeSegment_of_last load range last

end Image

/-- A memory with `sampleElf` at 0x100000, with the entry point 0x400000 and a segment that has `filesz` bytes
in the file and one in memory. -/
def sampleImage (filesz : BitVec 8) : Memory := fun address =>
  if address < 0x100000 then 0
  else if address = 0x10001A then 0x40
  else if address = 0x100060 then filesz
  else sampleElf (address - 0x100000)

theorem sampleImage_elfImage {filesz : BitVec 8}
    (one : (Elf64Header.read (fileAt (sampleImage filesz) 0x100000)).ePhnum = 1)
    (table : (Elf64Header.read (fileAt (sampleImage filesz) 0x100000)).ePhoff = 0x40) :
    ElfImage (fileAt (sampleImage filesz) 0x100000) 0x100000 0x7A where
  space := by decide
  header := by decide
  table i entry := by
    obtain rfl : i = 0 := by omega
    omega

theorem sampleImage_one : ElfImage (fileAt (sampleImage 1) 0x100000) 0x100000 0x7A :=
  sampleImage_elfImage (by decide) (by decide)

theorem sampleImage_apart (filesz : BitVec 8) {size : ℕ}
    (segments : tableSegments (fileAt (sampleImage filesz) 0x100000) = [⟨1, 0, 0x78, 0x400000, size, 1⟩]) :
    TargetsApart (fileAt (sampleImage filesz) 0x100000) 0x100000 0x7A := by
  rw [TargetsApart, segments]
  simp only [List.mem_singleton, forall_eq, Elf64Phdr.InRange, InImage]
  omega

theorem elf_loads_sample :
    ∃ t, elfLoadIn 0x100000 0x9000 ⟨sampleImage 1, []⟩ = some (.ok (), t) ∧ t.mem.load64 0x9000 = 0x400000 ∧
      t.mem 0x400000 = sampleElf 0x78 ∧ t.mem 0x400001 = sampleImage 1 0x400001 := by
  have segments : tableSegments (fileAt (sampleImage 1) 0x100000) = [⟨1, 0, 0x78, 0x400000, 1, 1⟩] := by decide
  have loadable : ∀ ph ∈ tableSegments (fileAt (sampleImage 1) 0x100000), ph.Loadable 0x7A := by
    rw [segments]
    simp only [List.mem_singleton, forall_eq]
    exact ⟨by decide, by decide, by decide⟩
  obtain ⟨t, run, entry, bytes⟩ := elf_loads sampleImage_one rfl (by decide) loadable
    (sampleImage_apart 1 segments)
  refine ⟨t, run, entry, ?_, ?_⟩
  · exact (bytes 0x400000 (by decide)).1 [] _ [] segments (by decide) (fun _ member => nomatch member)
  · refine (bytes 0x400001 (by decide)).2 fun ph member range => ?_
    rw [segments, List.mem_singleton] at member
    subst member
    exact absurd range (by decide)

section Image

variable {m : Memory} {elfData outEntry size : ℕ} (image : ElfImage (fileAt m elfData) elfData size)

include image

/-- Where a run has written inside the ranges only, nothing is beyond them. -/
theorem WritesInside.contained (targets : TargetsApart (fileAt m elfData) elfData size)
    (writes : WritesInside m elfData outEntry) : SegmentsContained (fileAt m elfData) := by
  obtain ⟨result, t, run, inside⟩ := writes
  cases check : elfCheck (Elf64Header.read (fileAt m elfData)) with
  | error e =>
    refine ⟨fun accepted => ?_, ?_⟩
    · rw [check] at accepted
      cases accepted
    · intro ph member
      rw [tableSegments_of_error check] at member
      cases member
  | ok _ =>
    have segment := mem_tableSegments check
    simp only [elfLoadIn, check, Option.map_eq_some_iff] at run
    obtain ⟨after, loop, final⟩ := run
    obtain ⟨-, rfl⟩ := Prod.mk.inj final
    have few : (Elf64Header.read (fileAt m elfData)).ePhnum < 2 ^ 16 := Memory.load_lt _ _ 2
    have apart := elfLoadLoop_apart image (fun _ _ => rfl) (by omega) loop fun x member => by
      obtain ⟨ph, loaded, range⟩ := inside x member
      exact targets ph loaded x range
    obtain ⟨after', loop', done⟩ := elfLoadLoop_of_apart image fun k entry => apart k (Nat.zero_le k) entry
    obtain rfl := Option.some.inj (loop.symm.trans loop')
    refine ⟨fun _ i entry => (apart i (Nat.zero_le i) entry).small, fun ph member j bound _ => ?_⟩
    obtain ⟨k, entry, rfl, load⟩ := (segment ph).mp member
    exact inside _ ((done.written _).mpr (Or.inr ⟨k, Nat.zero_le k, entry, load, j, bound, rfl⟩))

/-- For every image with its program headers inside and target ranges that do not meet it, whatever the sizes
of its segments: `elf_load` writes inside the ranges only, if and only if its segments are contained in them. -/
theorem elf_writes_inside_iff (targets : TargetsApart (fileAt m elfData) elfData size) :
    WritesInside m elfData outEntry ↔ SegmentsContained (fileAt m elfData) := by
  refine ⟨fun writes => writes.contained image targets, fun contained => ?_⟩
  cases check : elfCheck (Elf64Header.read (fileAt m elfData)) with
  | error e =>
    refine ⟨.error e, ⟨m, []⟩, by simp only [elfLoadIn, check], fun x member => ?_⟩
    cases member
  | ok _ =>
    have segment := mem_tableSegments check
    have covered : ∀ ph ∈ tableSegments (fileAt m elfData), ∀ x, ph.Covers x →
        ∃ ph' ∈ tableSegments (fileAt m elfData), ph'.InRange x := by
      rintro ph member x ⟨j, bound, rfl⟩
      rcases Decidable.em (ph.pMemsz ≤ j ∨ 2 ^ 64 ≤ ph.pVaddr + j) with past | own
      · exact contained.beyond ph member j bound past
      · rw [Nat.mod_eq_of_lt (by omega)]
        exact ⟨ph, member, by omega, by omega⟩
    obtain ⟨t, loop, done⟩ := elfLoadLoop_of_apart image fun k entry => by
      refine ⟨contained.small check k entry, fun load x covers => ?_⟩
      obtain ⟨ph, member, range⟩ := covered _ ((segment _).mpr ⟨k, entry, rfl, load⟩) x covers
      exact targets ph member x range
    refine ⟨.ok (), _, by simp only [elfLoadIn, check, loop, Option.map_some]; rfl, fun x member => ?_⟩
    rcases (done.written x).mp member with old | ⟨k, _, entry, load, covers⟩
    · cases old
    · exact covered _ ((segment _).mpr ⟨k, entry, rfl, load⟩) x covers

end Image

theorem elf_writes_inside_iff_sample : WritesInside (sampleImage 1) 0x100000 0x9000 := by
  have segments : tableSegments (fileAt (sampleImage 1) 0x100000) = [⟨1, 0, 0x78, 0x400000, 1, 1⟩] := by decide
  have sizes : ∀ ph ∈ tableSegments (fileAt (sampleImage 1) 0x100000),
      ph.pFilesz ≤ ph.pMemsz ∧ ph.pVaddr + ph.pMemsz ≤ 2 ^ 64 := by
    rw [segments]
    decide
  exact (elf_writes_inside_iff sampleImage_one (sampleImage_apart 1 segments)).mpr
    (.of_sizes (fun _ => by decide) sizes)

/-- Two bytes in the file and one in memory: the second is written although no segment has its address. -/
theorem elf_writes_inside_fails :
    ElfImage (fileAt (sampleImage 2) 0x100000) 0x100000 0x7A ∧
      TargetsApart (fileAt (sampleImage 2) 0x100000) 0x100000 0x7A ∧
      ¬WritesInside (sampleImage 2) 0x100000 0x9000 := by
  have segments : tableSegments (fileAt (sampleImage 2) 0x100000) = [⟨1, 0, 0x78, 0x400000, 2, 1⟩] := by decide
  have image : ElfImage (fileAt (sampleImage 2) 0x100000) 0x100000 0x7A :=
    sampleImage_elfImage (by decide) (by decide)
  have targets := sampleImage_apart 2 segments
  refine ⟨image, targets, fun writes => ?_⟩
  obtain ⟨ph, member, range⟩ := (writes.contained image targets).beyond _
    (segments ▸ List.mem_singleton_self _) 1 (by decide) (Or.inl (by decide))
  rw [segments, List.mem_singleton] at member
  subst member
  exact absurd range (by decide)

end RaryOS.Soundness
