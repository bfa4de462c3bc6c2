import RaryOS.Proofs.MallocBlocks

/-! # Coalescing the block list

`coalesce` merges list neighbours without looking at their addresses. In a tiling the next block of
the list is also the next block in memory, so a merged block covers exactly the blocks it absorbed;
only the header of the absorbing block is written. The sweep of `free` does this for every block left.
-/

namespace RaryOS.Model

open RaryOS.Core MemoryBlock

/-- A free block together with its free successor. -/
def Block.merge (b c : Block) : Block := ⟨b.addr, b.size + headerSize + c.size, none⟩

/-- A merged block takes the place of the two it was made from. -/
theorem merge_tiles {b c : Block} {rest : List Block} {start stop : ℕ} :
    BlockTiles start (b :: c :: rest) stop → BlockTiles start (b.merge c :: rest) stop := by
  rintro ⟨first, _, next, _, tail⟩
  have stops : (b.merge c).stop = c.stop := by
    simp only [Block.merge, Block.stop] at next ⊢
    omega
  refine ⟨first, Nat.le_trans (Nat.le_add_right _ _) (b.merge c).addr_le_stop, ?_⟩
  rwa [stops]

/-- What `coalesce` makes of a block: all free successors are absorbed. -/
def absorb : Block → List Block → Block × List Block
  | b, [] => (b, [])
  | b, c :: rest =>
    if b.request = none ∧ c.request = none then absorb (b.merge c) rest else (b, c :: rest)

/-- What the sweep makes of a list. -/
def sweepFrom : Block → List Block → List Block
  | b, [] => [b]
  | b, c :: rest =>
    if b.request = none ∧ c.request = none then sweepFrom (b.merge c) rest
    else b :: sweepFrom c rest

def sweep : List Block → List Block
  | [] => []
  | b :: rest => sweepFrom b rest

theorem absorb_addr (b : Block) (rest : List Block) : (absorb b rest).1.addr = b.addr := by
  induction rest generalizing b with
  | nil => rfl
  | cons c rest ih =>
    rw [absorb]
    split
    · exact ih _
    · rfl

theorem absorb_suffix (b : Block) (rest : List Block) : (absorb b rest).2 <:+ rest := by
  induction rest generalizing b with
  | nil => exact List.suffix_refl _
  | cons c rest ih =>
    rw [absorb]
    split
    · exact (ih _).trans (List.suffix_cons c rest)
    · exact List.suffix_refl _

/-- The sweep goes on from the first block that was not absorbed. -/
theorem sweepFrom_eq (b : Block) (rest : List Block) :
    sweepFrom b rest = (absorb b rest).1 :: sweep (absorb b rest).2 := by
  induction rest generalizing b with
  | nil => rfl
  | cons c rest ih =>
    rw [sweepFrom, absorb]
    split
    · exact ih _
    · rfl

theorem linkOf_sweepFrom (b : Block) (rest : List Block) (link : ℕ) :
    linkOf (sweepFrom b rest) link = b.addr := by
  rw [sweepFrom_eq]
  exact absorb_addr b rest

/-- The absorbing block reaches up to the first block that was not absorbed. -/
theorem absorb_tiles {b : Block} {rest : List Block} {start stop : ℕ}
    (tiles : BlockTiles start (b :: rest) stop) :
    BlockTiles start ((absorb b rest).1 :: (absorb b rest).2) stop := by
  induction rest generalizing b start with
  | nil => exact tiles
  | cons c rest ih =>
    rw [absorb]
    split
    · exact ih (merge_tiles tiles)
    · exact tiles

/-- The sweep neither adds, removes nor changes a live block. -/
theorem mem_sweepFrom_iff {b : Block} {rest : List Block} {x : Block} (live : x.request ≠ none) :
    x ∈ sweepFrom b rest ↔ x ∈ b :: rest := by
  induction rest generalizing b with
  | nil => rfl
  | cons c rest ih =>
    rw [sweepFrom]
    split
    · next free =>
      rw [ih, List.mem_cons, List.mem_cons, List.mem_cons]
      have notMerged : x ≠ b.merge c := by rintro rfl; exact live rfl
      have notFirst : x ≠ b := by rintro rfl; exact live free.1
      have notSecond : x ≠ c := by rintro rfl; exact live free.2
      simp only [notMerged, notFirst, notSecond, false_or]
    · rw [List.mem_cons, ih, ← List.mem_cons]

theorem sweepFrom_tiles {b : Block} {rest : List Block} {start stop : ℕ}
    (tiles : BlockTiles start (b :: rest) stop) : BlockTiles start (sweepFrom b rest) stop := by
  induction rest generalizing b start with
  | nil => exact tiles
  | cons c rest ih =>
    rw [sweepFrom]
    split
    · exact ih (merge_tiles tiles)
    · obtain ⟨first, ordered, tail⟩ := tiles
      exact ⟨first, ordered, ih tail⟩

section Coalesce

variable {m : Memory} {b c : Block} {rest : List Block} {start stop : ℕ}

/-- The test of `coalesce` for two neighbours. -/
theorem coalesce_guard (tiles : BlockTiles start (b :: c :: rest) stop) (headers : Headers m (b :: c :: rest) 0) :
    (MemoryBlock.next m b.addr ≠ 0 ∧ isFree m b.addr = true ∧ isFree m (MemoryBlock.next m b.addr) = true) ↔
      b.request = none ∧ c.request = none := by
  obtain ⟨header, second, _⟩ := headers
  obtain ⟨_, _, next, _⟩ := tiles
  have place : c.addr ≠ 0 := by
    simp only [Block.stop, headerSize] at next
    omega
  rw [header.next, linkOf, header.free, second.free]
  simp only [ne_eq, place, not_false_eq_true, true_and, Option.isNone_iff_eq_none]

/-- One round that merges two free neighbours: it writes the header of the first. -/
theorem coalesceBody_merges (tiles : BlockTiles start (b :: c :: rest) stop) (small : stop < 2 ^ 64)
    (headers : Headers m (b :: c :: rest) 0) (free : b.request = none ∧ c.request = none) :
    ∃ m', coalesceBody b.addr m = .inl m' ∧ Headers m' (b.merge c :: rest) 0 ∧
      ∀ query, query < b.addr ∨ b.addr + headerSize ≤ query → m' query = m query := by
  have guard := coalesce_guard tiles headers
  obtain ⟨header, second, headers⟩ := headers
  obtain ⟨first, ordered, next, ordered', tail⟩ := tiles
  have stopBound := tail.le
  simp only [Block.stop, headerSize] at next stopBound
  have total : (MemoryBlock.size m b.addr + headerSize + MemoryBlock.size m c.addr) % 2 ^ 64 =
      (b.merge c).size := by
    rw [header.size, second.size]
    exact Nat.mod_eq_of_lt (by simp only [headerSize]; omega)
  have sizeSmall : (b.merge c).size < 2 ^ 64 := by
    simp only [Block.merge, headerSize]
    omega
  have linkSmall : linkOf rest 0 < 2 ^ 64 := second.next ▸ m.load64_lt _
  have outside : ∀ query, query < b.addr ∨ b.addr + headerSize ≤ query →
      setNext (setSize m b.addr (b.merge c).size) b.addr (linkOf rest 0) query = m query :=
    fun query away => by rw [setNext_apply _ away, setSize_apply _ away]
  have kept : MemoryBlock.next (setSize m b.addr (b.merge c).size) c.addr = linkOf rest 0 := by
    rw [← second.next]
    exact Memory.load_congr fun query lower _ =>
      setSize_apply _ (Or.inr (by simp only [headerSize]; omega))
  have merged : Header (setNext (setSize m b.addr (b.merge c).size) b.addr (linkOf rest 0))
      (b.merge c) (linkOf rest 0) := by
    refine ⟨?_, ?_, ?_⟩
    · simp only [Block.merge, size_setNext, size_setSize]
      exact Nat.mod_eq_of_lt sizeSmall
    · simp only [Block.merge, isFree_setNext, isFree_setSize, header.free, free.1]
    · simp only [Block.merge, next_setNext]
      exact Nat.mod_eq_of_lt linkSmall
  have tailHeaders : Headers (setNext (setSize m b.addr (b.merge c).size) b.addr (linkOf rest 0))
      rest 0 := headers.congr fun d member query lower _ => by
    have := (tail.bounds_of_mem member).1
    simp only [Block.stop, headerSize] at this
    exact outside query (Or.inr (by simp only [headerSize]; omega))
  refine ⟨_, ?_, ⟨merged, tailHeaders⟩, outside⟩
  rw [coalesceBody, if_pos (guard.mpr free)]
  simp only [header.next, linkOf, next_setSize, total, kept]

/-- `coalesce` returns within the length of the list and writes only the block's own header. -/
theorem coalesce_returns (fuel : ℕ) (tiles : BlockTiles start (b :: rest) stop) (small : stop < 2 ^ 64)
    (headers : Headers m (b :: rest) 0) (enough : rest.length < fuel) :
    ∃ m', loop (coalesceBody b.addr) fuel m = some m' ∧
      Headers m' ((absorb b rest).1 :: (absorb b rest).2) 0 ∧
      ∀ query, query < b.addr ∨ b.addr + headerSize ≤ query → m' query = m query := by
  induction rest generalizing b m fuel with
  | nil =>
    obtain ⟨fuel, rfl⟩ : ∃ k, fuel = k + 1 := ⟨fuel - 1, by omega⟩
    have done : coalesceBody b.addr m = .inr m := by
      simp only [coalesceBody, headers.1.next, linkOf, ne_eq, not_true_eq_false, false_and, if_false]
    exact ⟨m, by simp only [loop, done], headers, fun _ _ => rfl⟩
  | cons c rest ih =>
    obtain ⟨fuel, rfl⟩ : ∃ k, fuel = k + 1 := ⟨fuel - 1, by omega⟩
    rw [List.length_cons] at enough
    rw [absorb]
    split
    · next free =>
      obtain ⟨m₁, step, merged, outside⟩ := coalesceBody_merges tiles small headers free
      obtain ⟨m', returns, result, frame⟩ := ih fuel (merge_tiles tiles) merged (by omega)
      refine ⟨m', ?_, result, fun query away => (frame query away).trans (outside query away)⟩
      simp only [loop, step]
      exact returns
    · next held =>
      have done : coalesceBody b.addr m = .inr m := by
        rw [coalesceBody, if_neg (mt (coalesce_guard tiles headers).mp held)]
      exact ⟨m, by simp only [loop, done], headers, fun _ _ => rfl⟩

end Coalesce

/-- The headers of a swept list do not depend on which memory links to it. -/
theorem linkOf_sweep (blocks : List Block) (link : ℕ) :
    linkOf (sweep blocks) link = linkOf blocks link := by
  cases blocks with
  | nil => rfl
  | cons b rest => exact linkOf_sweepFrom b rest link

/-- The sweep returns within the length of the list and writes only headers of the list. -/
theorem sweep_returns {m : Memory} {blocks : List Block} {start stop : ℕ} (inner fuel : ℕ)
    (tiles : BlockTiles start blocks stop) (positive : 0 < start) (small : stop < 2 ^ 64)
    (headers : Headers m blocks 0) (enoughInner : blocks.length ≤ inner)
    (enough : blocks.length < fuel) :
    ∃ m', loop (freeBody inner) fuel (m, linkOf blocks 0) = some (some m') ∧
      Headers m' (sweep blocks) 0 ∧
      ∀ query, (∀ b ∈ blocks, query < b.addr ∨ b.addr + headerSize ≤ query) → m' query = m query := by
  induction fuel generalizing m blocks start with
  | zero => omega
  | succ fuel ih =>
    cases blocks with
    | nil => exact ⟨m, rfl, trivial, fun _ _ => rfl⟩
    | cons b rest =>
      simp only [List.length_cons] at enough enoughInner
      obtain ⟨m₁, returns, headers₁, frame₁⟩ :=
        coalesce_returns inner tiles small headers (by omega)
      have addr := absorb_addr b rest
      have covers := absorb_tiles tiles
      obtain ⟨before, suffix⟩ := absorb_suffix b rest
      rw [sweep, sweepFrom_eq]
      generalize (absorb b rest).1 = x at headers₁ addr covers
      generalize (absorb b rest).2 = remaining at headers₁ covers suffix
      subst suffix
      obtain ⟨rfl, _, tail⟩ := covers
      have nonzero : b.addr ≠ 0 := by omega
      rw [List.length_append] at enough enoughInner
      obtain ⟨m₂, returns₂, headers₂, frame₂⟩ :=
        ih tail (by simp only [Block.stop, headerSize]; omega) headers₁.2 (by omega) (by omega)
      have step : freeBody inner (m, b.addr) = .inl (m₁, linkOf remaining 0) := by
        simp only [freeBody, if_neg nonzero, returns, ← headers₁.1.next, addr]
      refine ⟨m₂, ?_, ⟨?_, headers₂⟩, fun query away => ?_⟩
      · change loop (freeBody inner) (fuel + 1) (m, b.addr) = _
        simp only [loop, step, returns₂]
      · rw [linkOf_sweep]
        refine headers₁.1.congr fun query _ upper => frame₂ query fun c member => Or.inl ?_
        have := (tail.bounds_of_mem member).1
        exact Nat.lt_of_lt_of_le upper (Nat.le_trans x.addr_le_stop this)
      · have kept := frame₂ query fun c member =>
          away c (List.mem_cons_of_mem _ (List.mem_append_right _ member))
        exact kept.trans (frame₁ query (away b List.mem_cons_self))

end RaryOS.Model
