import RaryOS.Proofs.MallocHeap

/-! # Calls of `malloc`

The search ends at a free block that is long enough or behind the last block, and then the heap is extended.
A call that is served (`RequestServed`) edits the list in one of the ways of `MallocBlocks`, and does nothing
else to the heap than `MallocEffect` says.
-/

namespace RaryOS.Model

open RaryOS.Core MemoryBlock

/-- What `extend` may do: refuse, or what `sbrk` does. -/
def extendBy (grant : Bool) (h : KernelHeap) (increment : ℕ) : ℕ × KernelHeap :=
  if grant then sbrk h increment else (sbrkFailed, h)

theorem extendBy_refused {h : KernelHeap} {increment : ℕ} (grant : Bool) (refuses : SbrkRefuses h increment) :
    extendBy grant h increment = (sbrkFailed, h) := by
  cases grant with
  | false => rfl
  | true => exact refuses.eq

/-- An extension with room below the limit is refused out of hand, or made at the old break. -/
theorem extendBy_cases {h : KernelHeap} {increment : ℕ} (grant : Bool) (limitSmall : h.heapLimit < 2 ^ 64)
    (room : h.heapEnd + increment ≤ h.heapLimit) :
    extendBy grant h increment = (sbrkFailed, h) ∨
      extendBy grant h increment = (h.heapEnd, { h with heapEnd := h.heapEnd + increment }) := by
  cases grant with
  | false => exact Or.inl rfl
  | true => exact (sbrk_cases increment (by omega) (by omega) (by omega)).imp_right And.left

section Malloc

variable {start size : ℕ} {h : KernelHeap} {blocks : List Block}

/-- The search ends past the last block, or at a free block that is large enough. -/
theorem mallocBody_cases (size : ℕ) (rep : HeapRep start h blocks) :
    ((∀ b ∈ blocks, ¬b.Fits (roundRequest size)) ∧
        Returns (mallocBody h.mem (roundRequest size)) (h.firstBlock, 0) (.missing (lastAddr blocks 0))) ∨
      ∃ before b after, blocks = before ++ b :: after ∧ b.Fits (roundRequest size) ∧
        Returns (mallocBody h.mem (roundRequest size)) (h.firstBlock, 0) (.found b.addr) := by
  rw [rep.first]
  exact mallocBody_returns rep.tiles rep.positive rep.headers

/-- Every call of `malloc` returns. -/
theorem malloc_total (size : ℕ) (extend : KernelHeap → ℕ → ℕ × KernelHeap) (rep : HeapRep start h blocks) :
    ∃ fuel ptr h', malloc extend fuel h size = some (ptr, h') := by
  by_cases zero : size = 0
  · exact ⟨0, 0, h, by rw [malloc, if_pos zero]⟩
  · rcases mallocBody_cases size rep with ⟨_, fuel, missing⟩ | ⟨_, b, _, _, _, fuel, found⟩
    · refine ⟨fuel, ?_⟩
      simp only [malloc, if_neg zero, missing]
      split
      · exact ⟨_, _, rfl⟩
      · split <;> exact ⟨_, _, rfl⟩
    · exact ⟨fuel, _, _, by rw [malloc, if_neg zero, found]⟩

/-- A fuelled `malloc` has at most one result. -/
theorem malloc_unique {extend : KernelHeap → ℕ → ℕ × KernelHeap} {first second : ℕ} {left right : ℕ × KernelHeap}
    (here : malloc extend first h size = some left) (there : malloc extend second h size = some right) :
    left = right := by
  by_cases zero : size = 0
  · rw [malloc, if_pos zero] at here there
    exact Option.some.inj (here.symm.trans there)
  · cases found : loop (mallocBody h.mem (roundRequest size)) first (h.firstBlock, 0) with
    | none =>
      rw [malloc, if_neg zero, found] at here
      cases here
    | some result =>
      cases found' : loop (mallocBody h.mem (roundRequest size)) second (h.firstBlock, 0) with
      | none =>
        rw [malloc, if_neg zero, found'] at there
        cases there
      | some result' =>
        obtain rfl := Returns.unique ⟨first, found⟩ ⟨second, found'⟩
        rw [malloc, if_neg zero, found] at here
        rw [malloc, if_neg zero, found'] at there
        exact Option.some.inj (here.symm.trans there)

/-- What becomes of the list in a call of `malloc` that returns `ptr`. -/
inductive MallocBlocks (h : KernelHeap) (blocks : List Block) (size : ℕ) : ℕ → List Block → Prop
  | null : MallocBlocks h blocks size 0 blocks
  | take {before after : List Block} {b : Block} : blocks = before ++ b :: after → b.Fits (roundRequest size) →
      MallocBlocks h blocks size (data b.addr) (before ++ b.carve (roundRequest size) size ++ after)
  | bump : (∀ b ∈ blocks, ¬b.Fits (roundRequest size)) →
      MallocBlocks h blocks size (data h.heapEnd) (blocks ++ [⟨h.heapEnd, roundRequest size, some size⟩])

/-- What `malloc` does when no block of the list fits. -/
theorem malloc_extends (grant : Bool) (rep : HeapRep start h blocks) (nonzero : size ≠ 0)
    (none : ∀ b ∈ blocks, ¬b.Fits (roundRequest size))
    (extension : SbrkRefuses h ((headerSize + roundRequest size) % 2 ^ 64) ∨
      size ≤ roundRequest size ∧ h.heapEnd + (headerSize + roundRequest size) ≤ h.heapLimit)
    {fuel ptr : ℕ} {h' : KernelHeap}
    (missing : loop (mallocBody h.mem (roundRequest size)) fuel (h.firstBlock, 0) =
      some (.missing (lastAddr blocks 0)))
    (returns : malloc (extendBy grant) fuel h size = some (ptr, h')) :
    ∃ blocks', MallocBlocks h blocks size ptr blocks' ∧ MallocEffect start h blocks size ptr h' blocks' := by
  have limitSmall := rep.limitSmall.small
  rw [malloc, if_neg nonzero, missing] at returns
  have outcome : extendBy grant h ((headerSize + roundRequest size) % 2 ^ 64) = (sbrkFailed, h) ∨
      extendBy grant h ((headerSize + roundRequest size) % 2 ^ 64) =
        (h.heapEnd, { h with heapEnd := h.heapEnd + (headerSize + roundRequest size) }) ∧
      size ≤ roundRequest size ∧ h.heapEnd + (headerSize + roundRequest size) ≤ h.heapLimit := by
    rcases extension with refuses | ⟨large, room⟩
    · exact Or.inl (extendBy_refused grant refuses)
    · rw [Nat.mod_eq_of_lt (by omega)]
      exact (extendBy_cases grant limitSmall room).imp_right fun granted => ⟨granted, large, room⟩
  rcases outcome with refused | ⟨granted, large, room⟩
  · rw [refused] at returns
    simp only [if_true, Option.some.injEq, Prod.mk.injEq] at returns
    obtain ⟨rfl, rfl⟩ := returns
    exact ⟨blocks, .null, .null rep⟩
  · have success : h.heapEnd ≠ sbrkFailed := by
      simp only [sbrkFailed, headerSize] at room ⊢
      omega
    rw [granted] at returns
    simp only [if_neg success] at returns
    cases blocks with
    | nil =>
      rw [rep.first] at returns
      simp only [linkOf, if_true, Option.some.injEq, Prod.mk.injEq] at returns
      obtain ⟨rfl, rfl⟩ := returns
      exact ⟨_, .bump none, rep.bump_first nonzero large room⟩
    | cons b rest =>
      simp only [if_neg rep.first_ne_zero, Option.some.injEq, Prod.mk.injEq] at returns
      obtain ⟨rfl, rfl⟩ := returns
      exact ⟨_, .bump none, rep.bump_next (List.cons_ne_nil b rest) nonzero large room⟩

/-- The first `malloc` of a run asks `sbrk` for a header and the rounded request. -/
theorem malloc_first {h t : KernelHeap} {size : ℕ} (empty : h.firstBlock = 0) (nonzero : size ≠ 0)
    (granted : sbrk h ((headerSize + roundRequest size) % 2 ^ 64) = (h.heapEnd, t))
    (success : h.heapEnd ≠ sbrkFailed) :
    ∃ u, malloc sbrk 1 h size = some (data h.heapEnd, u) ∧ u.heapEnd = t.heapEnd := by
  simp only [malloc, if_neg nonzero, empty, loop, mallocBody, if_true, granted, if_neg success]
  split <;> exact ⟨_, rfl, rfl⟩

/-- A call of `malloc` for a request that is served does what `MallocEffect` says. -/
theorem malloc_served (grant : Bool) (rep : HeapRep start h blocks)
    (served : RequestServed h size (∃ b ∈ blocks, b.Fits (roundRequest size))) {fuel ptr : ℕ}
    {h' : KernelHeap} (returns : malloc (extendBy grant) fuel h size = some (ptr, h')) :
    ∃ blocks', MallocBlocks h blocks size ptr blocks' ∧ MallocEffect start h blocks size ptr h' blocks' := by
  by_cases zero : size = 0
  · rw [malloc, if_pos zero] at returns
    cases returns
    exact ⟨blocks, .null, .null rep⟩
  cases found : loop (mallocBody h.mem (roundRequest size)) fuel (h.firstBlock, 0) with
  | none =>
    rw [malloc, if_neg zero, found] at returns
    cases returns
  | some result =>
    rcases mallocBody_cases size rep with ⟨none, missing⟩ | ⟨before, b, after, rfl, fits, here⟩
    · obtain rfl := Returns.unique ⟨fuel, found⟩ missing
      rcases served with zero' | ⟨⟨b, member, fits⟩, _⟩ | ⟨_, extension⟩
      · exact absurd zero' zero
      · exact absurd fits (none b member)
      · exact malloc_extends grant rep zero none extension found returns
    · obtain rfl := Returns.unique ⟨fuel, found⟩ here
      rw [malloc, if_neg zero, found] at returns
      cases returns
      rcases served with zero' | ⟨_, large⟩ | ⟨none, _⟩
      · exact absurd zero' zero
      · exact ⟨_, .take rfl fits, rep.take fits large⟩
      · exact absurd ⟨b, List.mem_append_right _ List.mem_cons_self, fits⟩ none

/-- A call of `malloc` does what `MallocEffect` says. -/
theorem malloc_effect (grant : Bool) (rep : HeapRep start h blocks) (request : RequestFits h size)
    {fuel ptr : ℕ} {h' : KernelHeap} (returns : malloc (extendBy grant) fuel h size = some (ptr, h')) :
    ∃ blocks', MallocEffect start h blocks size ptr h' blocks' :=
  (malloc_served grant rep (request.served _ rep.endSmall.small) returns).imp fun _ => And.right

end Malloc

end RaryOS.Model
