import Mathlib.Data.List.Chain
import RaryOS.Proofs.MallocCalls
import RaryOS.Proofs.MallocRelease

/-! # Free neighbours in the block list

After the sweep of `free` no two neighbours of the list are both free. `malloc` keeps that: what it splits off a
free block is free, but the neighbours of a free block are not. So the sweep that follows finds nothing to merge
but the two parts of a block that was split.
-/

namespace RaryOS.Model

open RaryOS.Core MemoryBlock

/-- Not both blocks are free. -/
def Block.Apart (b c : Block) : Prop := ¬(b.request = none ∧ c.request = none)

section Sweep

theorem sweepFrom_free {b c : Block} {rest : List Block} (freeB : b.request = none) (freeC : c.request = none) :
    sweepFrom b (c :: rest) = sweepFrom (b.merge c) rest := if_pos ⟨freeB, freeC⟩

theorem sweepFrom_apart {b c : Block} {rest : List Block} (apart : b.Apart c) :
    sweepFrom b (c :: rest) = b :: sweepFrom c rest := if_neg apart

/-- The sweep keeps the flag of the first block. -/
theorem sweepFrom_eq_cons (b : Block) (rest : List Block) :
    ∃ x tail, sweepFrom b rest = x :: tail ∧ x.request = b.request := by
  induction rest generalizing b with
  | nil => exact ⟨b, [], rfl, rfl⟩
  | cons c rest ih =>
    rw [sweepFrom]
    split
    · next free =>
      obtain ⟨x, tail, swept, flag⟩ := ih (b.merge c)
      exact ⟨x, tail, swept, flag.trans free.1.symm⟩
    · exact ⟨b, _, rfl, rfl⟩

theorem sweepFrom_isChain (b : Block) (rest : List Block) : (sweepFrom b rest).IsChain Block.Apart := by
  induction rest generalizing b with
  | nil => exact List.isChain_singleton b
  | cons c rest ih =>
    rw [sweepFrom]
    split
    · exact ih _
    · next apart =>
      obtain ⟨x, tail, swept, flag⟩ := sweepFrom_eq_cons c rest
      have later := ih c
      rw [swept] at later ⊢
      refine List.isChain_cons_cons.mpr ⟨?_, later⟩
      rwa [Block.Apart, flag]

/-- After the sweep no two neighbours are free. -/
theorem sweep_isChain (blocks : List Block) : (sweep blocks).IsChain Block.Apart := by
  cases blocks with
  | nil => exact List.isChain_nil
  | cons b rest => exact sweepFrom_isChain b rest

/-- Where no two neighbours are free the sweep does nothing. -/
theorem sweep_of_isChain {blocks : List Block} (chain : blocks.IsChain Block.Apart) : sweep blocks = blocks := by
  cases blocks with
  | nil => rfl
  | cons b rest =>
    rw [sweep]
    induction rest generalizing b with
    | nil => rfl
    | cons c rest ih =>
      obtain ⟨apart, later⟩ := List.isChain_cons_cons.mp chain
      rw [sweepFrom_apart apart, ih c later]

/-- Merging is associative. -/
theorem Block.merge_merge (b c d : Block) : (b.merge c).merge d = b.merge (c.merge d) := by
  simp only [Block.merge, Block.mk.injEq, true_and, and_true]
  omega

theorem merge_request (b c : Block) : (b.merge c).request = none := rfl

theorem sweepFrom_merge {x y : Block} (freeX : x.request = none) (freeY : y.request = none) (b : Block)
    (before after : List Block) :
    sweepFrom b (before ++ x :: y :: after) = sweepFrom b (before ++ x.merge y :: after) := by
  induction before generalizing b with
  | nil =>
    rw [List.nil_append, List.nil_append]
    by_cases free : b.request = none
    · rw [sweepFrom_free free freeX, sweepFrom_free (merge_request b x) freeY, Block.merge_merge,
        sweepFrom_free free (merge_request x y)]
    · have apart (c : Block) : b.Apart c := fun both => free both.1
      rw [sweepFrom_apart (apart x), sweepFrom_free freeX freeY, sweepFrom_apart (apart (x.merge y))]
  | cons c before ih =>
    rw [List.cons_append, List.cons_append, sweepFrom, sweepFrom, ih, ih]

/-- Two free neighbours may as well be merged before the sweep. -/
theorem sweep_merge {x y : Block} (freeX : x.request = none) (freeY : y.request = none)
    (before after : List Block) : sweep (before ++ x :: y :: after) = sweep (before ++ x.merge y :: after) := by
  cases before with
  | nil => exact sweepFrom_free freeX freeY
  | cons b before => exact sweepFrom_merge freeX freeY b before after

end Sweep

/-! ## The edits of the list -/

section Edits

variable {h : KernelHeap} {blocks blocks' before after : List Block} {b : Block} {start stop size request : ℕ}

/-- Carving a block keeps free blocks apart, since its neighbours are in use. -/
theorem carve_isChain (chain : (before ++ b :: after).IsChain Block.Apart) (free : b.request = none) :
    (before ++ b.carve size request ++ after).IsChain Block.Apart := by
  obtain ⟨left, right⟩ := List.isChain_split.mp chain
  -- the live part is apart from any block, on either side
  have used (live : Block) (request : live.request ≠ none) (c : Block) : live.Apart c ∧ c.Apart live :=
    ⟨fun both => request both.1, fun both => request both.2⟩
  have head (live : Block) (request : live.request ≠ none) : (before ++ [live]).IsChain Block.Apart :=
    left.left_of_append.append (List.isChain_singleton live) fun x _ y last => by
      rw [List.head?_cons, Option.mem_some_iff] at last
      exact last ▸ (used live request x).2
  rw [Block.carve, List.append_assoc]
  split
  · refine List.isChain_append_cons_cons.mpr ⟨head _ (Option.some_ne_none _), ?_, ?_⟩
    · exact (used _ (Option.some_ne_none _) _).1
    · -- the remainder is as free as the block was
      exact right.imp_head fun apart both => apart ⟨free, both.2⟩
  · refine List.isChain_split.mpr ⟨head _ (Option.some_ne_none _), List.isChain_cons.mpr ⟨?_, right.tail⟩⟩
    exact fun y _ => (used _ (Option.some_ne_none _) y).1

/-- A call of `malloc` keeps free blocks apart. -/
theorem MallocBlocks.isChain {ptr : ℕ} (shape : MallocBlocks h blocks size ptr blocks')
    (chain : blocks.IsChain Block.Apart) : blocks'.IsChain Block.Apart := by
  cases shape with
  | null => exact chain
  | take split fits =>
    subst split
    exact carve_isChain chain fits.1
  | bump none =>
    refine List.isChain_append.mpr ⟨chain, List.isChain_singleton _, fun x _ y last => ?_⟩
    rw [List.head?_cons, Option.mem_some_iff] at last
    subst last
    exact fun both => by cases both.2

theorem freeBlocks_isChain (ptr : ℕ) (chain : blocks.IsChain Block.Apart) :
    (freeBlocks ptr blocks).IsChain Block.Apart := by
  rw [freeBlocks]
  split
  · exact chain
  · exact sweep_isChain _

theorem release_append (addr : ℕ) (first second : List Block) :
    release addr (first ++ second) = release addr first ++ release addr second := List.map_append

/-- Releasing a block leaves the blocks at other addresses as they are. -/
theorem release_of_ne {addr : ℕ} (other : ∀ c ∈ blocks, c.addr ≠ addr) : release addr blocks = blocks := by
  rw [release]
  conv_rhs => rw [← List.map_id blocks]
  exact List.map_congr_left fun c member => if_neg (other c member)

/-- Releasing the live part of a carved block: the sweep makes one block of the two parts again. -/
theorem sweep_release_carve (free : b.request = none) (chain : (before ++ b :: after).IsChain Block.Apart) :
    sweep (before ++ release b.addr (b.carve size request) ++ after) = before ++ b :: after := by
  rw [Block.carve, List.append_assoc]
  split
  · next room =>
    have elsewhere : b.addr + headerSize + size ≠ b.addr := by
      simp only [headerSize]
      omega
    have parts : release b.addr [⟨b.addr, size, some request⟩,
        ⟨b.addr + headerSize + size, b.size - size - headerSize, none⟩] =
        [⟨b.addr, size, none⟩, ⟨b.addr + headerSize + size, b.size - size - headerSize, none⟩] := by
      simp only [release, List.map_cons, List.map_nil, if_true, if_neg elsewhere]
    have whole : Block.merge ⟨b.addr, size, none⟩
        ⟨b.addr + headerSize + size, b.size - size - headerSize, none⟩ = b := by
      rcases b with ⟨addr, length, request⟩
      simp only at free room
      simp only [Block.merge, Block.mk.injEq, free, and_true, true_and]
      omega
    rw [parts, List.cons_append, List.cons_append, List.nil_append, sweep_merge rfl rfl, whole]
    exact sweep_of_isChain chain
  · have whole : release b.addr [⟨b.addr, b.size, some request⟩] = [b] := by
      rcases b with ⟨addr, length, request⟩
      simp only at free
      simp only [release, List.map_cons, List.map_nil, if_true, free]
    rw [whole]
    exact sweep_of_isChain chain

/-- `free` undoes what `malloc` does to a free block. -/
theorem freeBlocks_carve (tiles : BlockTiles start (before ++ b :: after) stop) (free : b.request = none)
    (chain : (before ++ b :: after).IsChain Block.Apart) :
    freeBlocks (data b.addr) (before ++ b.carve size request ++ after) = before ++ b :: after := by
  have nonzero : data b.addr ≠ 0 := by
    simp only [data, headerSize]
    omega
  obtain ⟨mid, left, rfl, ordered, right⟩ := Tiles.append_iff.mp tiles
  have length := b.addr_le_stop
  have others : (∀ c ∈ before, c.addr ≠ b.addr) ∧ ∀ c ∈ after, c.addr ≠ b.addr := by
    constructor
    · intro c member
      have bounds := left.bounds_of_mem member
      have lengthC := c.addr_le_stop
      simp only [headerSize] at lengthC
      omega
    · intro c member
      have bounds := right.bounds_of_mem member
      simp only [headerSize] at length
      omega
  have parts : release b.addr (before ++ b.carve size request ++ after) =
      before ++ release b.addr (b.carve size request) ++ after := by
    rw [release_append, release_append, release_of_ne others.1, release_of_ne others.2]
  rw [freeBlocks, if_neg nonzero, fromData_data, parts]
  exact sweep_release_carve free chain

end Edits

end RaryOS.Model
