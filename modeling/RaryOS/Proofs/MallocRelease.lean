import RaryOS.Proofs.MallocHeap

/-! # Calls of `free`

`free` marks the block of its pointer and sweeps the list (`freeBlocks`). The sweep merges free neighbours only,
so no live block changes and no payload is written.
-/

namespace RaryOS.Model

open RaryOS.Core MemoryBlock

/-- The blocks after `is_free = true` on the block at `addr`. -/
def release (addr : ℕ) (blocks : List Block) : List Block :=
  blocks.map fun b => if b.addr = addr then { b with request := none } else b

theorem linkOf_release (addr : ℕ) (blocks : List Block) (link : ℕ) :
    linkOf (release addr blocks) link = linkOf blocks link := by
  cases blocks with
  | nil => rfl
  | cons b rest =>
    simp only [release, List.map_cons, linkOf]
    split <;> rfl

theorem mem_release_iff {addr : ℕ} {blocks : List Block} {x : Block} (live : x.request ≠ none) :
    x ∈ release addr blocks ↔ x ∈ blocks ∧ x.addr ≠ addr := by
  simp only [release, List.mem_map]
  constructor
  · rintro ⟨b, member, rfl⟩
    split at live
    · exact absurd rfl live
    · next other =>
      rw [if_neg other]
      exact ⟨member, other⟩
  · rintro ⟨member, other⟩
    exact ⟨x, member, if_neg other⟩

theorem release_tiles (addr : ℕ) {start stop : ℕ} {blocks : List Block}
    (tiles : BlockTiles start blocks stop) : BlockTiles start (release addr blocks) stop := by
  refine Tiles.map (fun b => ?_) (fun b => ?_) tiles <;> split <;> rfl

/-- The flag is written in one header, and no other header holds that byte. -/
theorem release_headers {m : Memory} {addr link : ℕ} {blocks : List Block}
    (headers : Headers m blocks link)
    (apart : ∀ b ∈ blocks, b.addr = addr ∨ b.stop ≤ addr ∨ addr + headerSize ≤ b.addr) :
    Headers (setFree m addr true) (release addr blocks) link := by
  induction blocks with
  | nil => trivial
  | cons b rest ih =>
    obtain ⟨header, headers⟩ := headers
    have tail := ih headers fun c member => apart c (List.mem_cons_of_mem _ member)
    refine ⟨?_, tail⟩
    rw [← release, linkOf_release]
    dsimp only
    by_cases here : b.addr = addr
    · subst here
      rw [if_pos rfl]
      exact ⟨by rw [size_setFree, header.size], by rw [isFree_setFree]; rfl,
        by rw [next_setFree, header.next]⟩
    · rw [if_neg here]
      refine header.congr fun query lower upper => setFree_apply _ ?_
      have length := b.addr_le_stop
      rcases apart b List.mem_cons_self with same | before | after
      · exact absurd same here
      · exact Or.inl (by omega)
      · exact Or.inr (by omega)

theorem mem_sweep_iff {blocks : List Block} {x : Block} (live : x.request ≠ none) :
    x ∈ sweep blocks ↔ x ∈ blocks := by
  cases blocks with
  | nil => rfl
  | cons b rest => exact mem_sweepFrom_iff live

theorem sweep_tiles {start stop : ℕ} {blocks : List Block} (tiles : BlockTiles start blocks stop) :
    BlockTiles start (sweep blocks) stop := by
  cases blocks with
  | nil => exact tiles
  | cons b rest => exact sweepFrom_tiles tiles

/-- What becomes of the list in a call of `free`. -/
def freeBlocks (ptr : ℕ) (blocks : List Block) : List Block :=
  if ptr = 0 then blocks else sweep (release (fromData ptr) blocks)

/-- What a call of `free` for `ptr` does: the block of `ptr` is no longer live, every other block keeps
its state, and all payloads of live blocks and the memory outside the heap keep their bytes. -/
structure FreeEffect (start : ℕ) (h : KernelHeap) (blocks : List Block) (ptr : ℕ) (h' : KernelHeap)
    (blocks' : List Block) : Prop where
  rep : HeapRep start h' blocks'
  live : ∀ p request, LiveIn blocks' p request ↔ LiveIn blocks p request ∧ p ≠ ptr
  kept : ∀ b ∈ blocks, b.request ≠ none → data b.addr ≠ ptr → b ∈ blocks'
  frame : ∀ b ∈ blocks, b.request ≠ none →
    ∀ query, data b.addr ≤ query → query < b.stop → h'.mem query = h.mem query
  outside : ∀ query, query < start ∨ h'.heapEnd ≤ query → h'.mem query = h.mem query
  limits : h'.kernelEnd = h.kernelEnd ∧ h'.heapLimit = h.heapLimit ∧ h'.heapEnd = h.heapEnd

/-- More fuel for the inner loop does not change a sweep that returned. -/
theorem freeBody_mono {inner inner' fuel : ℕ} {s : Memory × ℕ} {m : Memory} (more : inner ≤ inner')
    (returns : loop (freeBody inner) fuel s = some (some m)) :
    loop (freeBody inner') fuel s = some (some m) := by
  induction fuel generalizing s with
  | zero => cases returns
  | succ fuel ih =>
    obtain ⟨m₀, current⟩ := s
    simp only [loop, freeBody] at returns ⊢
    by_cases null : current = 0
    · simp only [if_pos null] at returns ⊢
      exact returns
    · simp only [if_neg null] at returns ⊢
      cases step : loop (coalesceBody current) inner m₀ with
      | none =>
        rw [step] at returns
        cases returns
      | some m₁ =>
        rw [step] at returns
        rw [loop_mono step more]
        exact ih returns

section Free

variable {start : ℕ} {h : KernelHeap} {blocks : List Block}

/-- A fuelled `free` has at most one result. -/
theorem free_unique {ptr first second : ℕ} {h₁ h₂ : KernelHeap} (left : free first h ptr = some h₁)
    (right : free second h ptr = some h₂) : h₁ = h₂ := by
  by_cases null : ptr = 0
  · rw [free, if_pos null] at left right
    exact Option.some.inj (left.symm.trans right)
  · simp only [free, if_neg null, Option.map_eq_some_iff, Option.join_eq_some_iff] at left right
    obtain ⟨m₁, left, rfl⟩ := left
    obtain ⟨m₂, right, rfl⟩ := right
    have left := loop_mono (freeBody_mono (Nat.le_max_left first second) left) (Nat.le_max_left first second)
    have right := loop_mono (freeBody_mono (Nat.le_max_right first second) right)
      (Nat.le_max_right first second)
    rw [left] at right
    cases right
    rfl

/-- Freeing a live block. -/
theorem HeapRep.release (rep : HeapRep start h blocks) {ptr request : ℕ}
    (member : LiveIn blocks ptr request) :
    ∃ fuel h', free fuel h ptr = some h' ∧ FreeEffect start h blocks ptr h' (freeBlocks ptr blocks) := by
  obtain ⟨b, member, rfl, live⟩ := member
  have nonzero : data b.addr ≠ 0 := by simp only [data, headerSize]; omega
  rw [freeBlocks, if_neg nonzero, fromData_data]
  have apart : ∀ c ∈ blocks, c.addr = b.addr ∨ c.stop ≤ b.addr ∨ b.addr + headerSize ≤ c.addr := by
    intro c memC
    rcases rep.tiles.eq_or_disjoint memC member with rfl | before | after
    · exact Or.inl rfl
    · exact Or.inr (Or.inl before)
    · exact Or.inr (Or.inr (Nat.le_trans b.addr_le_stop after))
  have freed := release_headers rep.headers apart
  have tiles := release_tiles b.addr rep.tiles
  obtain ⟨m, returns, headers, kept⟩ := sweep_returns (blocks.length + 1)
    (blocks.length + 1) tiles rep.positive rep.endSmall.small freed
    (by rw [Model.release, List.length_map]; omega) (by rw [Model.release, List.length_map]; omega)
  have liveIff : ∀ {c : Block}, c.request ≠ none →
      (c ∈ sweep (Model.release b.addr blocks) ↔ c ∈ blocks ∧ c.addr ≠ b.addr) :=
    fun live => (mem_sweep_iff live).trans (mem_release_iff live)
  have written : ∀ query, (∀ c ∈ blocks, query < c.addr ∨ c.addr + headerSize ≤ query) →
      m query = h.mem query := by
    intro query away
    refine (kept query fun c memC => ?_).trans (setFree_apply _ (away b member))
    obtain ⟨d, memD, rfl⟩ := List.mem_map.mp memC
    have := away d memD
    split <;> exact this
  refine ⟨blocks.length + 1, { h with mem := m }, ?_,
    { rep := ⟨rep.positive, rep.endSmall, rep.limitSmall, sweep_tiles tiles, headers, ?_, ?_⟩,
      live := ?_, kept := ?_, frame := ?_, outside := ?_, limits := ⟨rfl, rfl, rfl⟩ }⟩
  · rw [linkOf_release, ← rep.first] at returns
    rw [free, if_neg nonzero, fromData_data]
    simp only [returns, Option.join_some, Option.map_some]
  · rw [rep.first, linkOf_sweep, linkOf_release]
  · intro c memC r live
    have old := (liveIff (by rw [live]; exact Option.some_ne_none r)).mp memC
    exact rep.fits c old.1 r live
  · intro p r
    constructor
    · rintro ⟨c, memC, rfl, live⟩
      have old := (liveIff (by rw [live]; exact Option.some_ne_none r)).mp memC
      exact ⟨⟨c, old.1, rfl, live⟩, fun same => old.2 (data_inj.mp same)⟩
    · rintro ⟨⟨c, memC, rfl, live⟩, other⟩
      refine ⟨c, (liveIff (by rw [live]; exact Option.some_ne_none r)).mpr ⟨memC, fun same => ?_⟩, rfl, live⟩
      exact other (data_inj.mpr same)
  · intro c memC live other
    exact (liveIff live).mpr ⟨memC, fun same => other (data_inj.mpr same)⟩
  · intro c memC _ query lower upper
    simp only [data] at lower
    apply written query
    intro d memD
    have length := d.addr_le_stop
    by_cases same : d = c
    · subst same
      omega
    · rcases rep.tiles.apart memD memC same with before | after <;> omega
  · intro query away
    apply written query
    intro c memC
    have bounds := rep.tiles.bounds_of_mem memC
    have length := c.addr_le_stop
    simp only at away
    omega

/-- Every call of `free` for `NULL` or a live block returns. -/
theorem free_total (rep : HeapRep start h blocks) {ptr : ℕ}
    (allowed : ptr = 0 ∨ ∃ request, LiveIn blocks ptr request) : ∃ fuel h', free fuel h ptr = some h' := by
  rcases allowed with null | ⟨request, member⟩
  · exact ⟨0, h, by rw [free, if_pos null]⟩
  · obtain ⟨fuel, h', returns, _⟩ := rep.release member
    exact ⟨fuel, h', returns⟩

/-- A call of `free` does what `FreeEffect` says. -/
theorem free_effect (rep : HeapRep start h blocks) {ptr fuel : ℕ} {h' : KernelHeap}
    (allowed : ptr = 0 ∨ ∃ request, LiveIn blocks ptr request) (returns : free fuel h ptr = some h') :
    FreeEffect start h blocks ptr h' (freeBlocks ptr blocks) := by
  rcases allowed with rfl | ⟨request, member⟩
  · rw [free, if_pos rfl] at returns
    cases returns
    rw [freeBlocks, if_pos rfl]
    refine ⟨rep, fun p r => (and_iff_left_of_imp ?_).symm, fun _ member _ _ => member,
      fun _ _ _ _ _ _ => rfl, fun _ _ => rfl, rfl, rfl, rfl⟩
    rintro ⟨b, _, rfl, _⟩
    simp only [data, headerSize]
    omega
  · obtain ⟨_, h₁, here, effect⟩ := rep.release member
    rw [← free_unique here returns]
    exact effect

end Free

end RaryOS.Model
