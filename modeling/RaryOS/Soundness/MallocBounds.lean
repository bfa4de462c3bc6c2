import RaryOS.Soundness.HeapRuns

/-! # Where `malloc` places what it returns

Rounding up, adding the header and moving the break are sums in 64 bits, and `sbrk` takes its increment as
signed: near the top of the range each of them wraps around. Then `malloc` returns a pointer to too few bytes,
or to a block that reaches behind the heap, and moves the break down. For all other requests it returns `NULL`
and changes nothing, or a block inside the heap.
-/

namespace RaryOS.Soundness

open RaryOS.Core RaryOS.Model

/-- A call returns `NULL` and leaves list and break alone, or a pointer to enough bytes inside the heap; and it
does not lower the break. -/
structure MallocOutcome (start : ℕ) (h : KernelHeap) (size ptr : ℕ) (h' : KernelHeap) : Prop where
  result : (ptr = 0 ∧ h'.heapEnd = h.heapEnd ∧
      ∀ list, BlockList h'.mem h'.firstBlock list ↔ BlockList h.mem h.firstBlock list) ∨
    start ≤ ptr ∧ size ≤ payloadSize h'.mem ptr ∧ ptr + payloadSize h'.mem ptr ≤ h.heapLimit
  raises : h.heapEnd ≤ h'.heapEnd

/-- `malloc` returns, and however long that takes, with such an outcome. -/
def MallocSound (start : ℕ) (h : KernelHeap) (size : ℕ) : Prop :=
  (∃ fuel ptr h', malloc sbrk fuel h size = some (ptr, h')) ∧
    ∀ fuel ptr h', malloc sbrk fuel h size = some (ptr, h') → MallocOutcome start h size ptr h'

section Call

variable {start size : ℕ} {h : KernelHeap} {blocks : List Block}

/-- A size that rounding wraps around is served with too few bytes if a free block is found. -/
theorem malloc_short (rep : HeapRep start h blocks) (word : size < 2 ^ 64) (wraps : roundRequest size < size)
    (fits : ∃ b ∈ blocks, b.Fits (roundRequest size)) : ¬MallocSound start h size := by
  have nonzero : size ≠ 0 := by omega
  have zero : roundRequest size = 0 := by
    rw [roundRequest] at wraps ⊢
    omega
  rintro ⟨_, sound⟩
  rcases mallocBody_cases size rep with ⟨none, _⟩ | ⟨before, b, after, rfl, fits, fuel, found⟩
  · obtain ⟨b, member, fits⟩ := fits
    exact none b member fits
  · -- for the list it is a block of a request of no bytes
    have effect := rep.take fits (Nat.zero_le (roundRequest size))
    have outcome := sound fuel _ _ (by rw [malloc, if_neg nonzero, found])
    obtain ⟨c, memC, address, _⟩ := (effect.live (MemoryBlock.data b.addr) 0).mpr
      (Or.inr ⟨by simp only [MemoryBlock.data, headerSize]; omega, rfl, rfl⟩)
    have payload := payloadSize_of_mem effect.rep memC
    rw [address] at payload
    have bounds := effect.rep.tiles.bounds_of_mem memC
    have small := rep.endSmall.small
    rcases outcome.result with ⟨null, _⟩ | ⟨_, enough, _⟩
    · simp only [MemoryBlock.data, headerSize] at null
      omega
    · rw [payload] at enough
      simp only [Block.stop, headerSize] at bounds
      rw [roundRequest] at zero
      omega

/-- The header of a block at the break, which no other header overlaps. -/
theorem bump_size (last value : ℕ) (away : last + headerSize ≤ h.heapEnd) :
    MemoryBlock.size (MemoryBlock.setNext (MemoryBlock.setNext (MemoryBlock.setFree (MemoryBlock.setSize h.mem
      h.heapEnd (roundRequest size)) h.heapEnd false) h.heapEnd 0) last value) h.heapEnd = roundRequest size := by
  have kept : ∀ m : Memory, MemoryBlock.size (MemoryBlock.setNext m last value) h.heapEnd =
      MemoryBlock.size m h.heapEnd := fun m => Memory.load_congr fun query lower _ =>
    setNext_apply value (Or.inr (Nat.le_trans away lower))
  rw [kept, size_setNext, size_setFree, size_setSize, Nat.mod_eq_of_lt (roundRequest_lt size)]

/-- A block at the break with the rounded size is as the outcome should be only if the heap holds it. -/
theorem MallocOutcome.room {h' : KernelHeap} (outcome : MallocOutcome start h size (MemoryBlock.data h.heapEnd) h')
    (payload : payloadSize h'.mem (MemoryBlock.data h.heapEnd) = roundRequest size) :
    size ≤ roundRequest size ∧ h.heapEnd + (headerSize + roundRequest size) ≤ h.heapLimit := by
  rcases outcome.result with ⟨null, _⟩ | ⟨_, enough, inside⟩
  · simp only [MemoryBlock.data, headerSize] at null
    omega
  · rw [payload] at enough inside
    refine ⟨enough, ?_⟩
    rw [← Nat.add_assoc]
    exact inside

/-- An extension that is granted though the exact break is behind the limit. -/
theorem malloc_wraps (rep : HeapRep start h blocks) (nonzero : size ≠ 0)
    (none : ∀ b ∈ blocks, ¬b.Fits (roundRequest size))
    (granted : ¬SbrkRefuses h ((headerSize + roundRequest size) % 2 ^ 64))
    (wraps : ¬(size ≤ roundRequest size ∧ h.heapEnd + (headerSize + roundRequest size) ≤ h.heapLimit)) :
    ¬MallocSound start h size := by
  rintro ⟨_, sound⟩
  rcases mallocBody_cases size rep with ⟨_, fuel, missing⟩ | ⟨before, b, after, rfl, fits, _⟩
  · have returns : ∀ result, malloc sbrk fuel h size = some result → _ := fun result returns =>
      sound fuel result.1 result.2 returns
    simp only [malloc, if_neg nonzero, missing, sbrk_granted granted] at returns
    by_cases failed : h.heapEnd = sbrkFailed
    · -- the old break looks like a failure, but the break has moved
      simp only [if_pos failed] at returns
      have moved := (returns _ rfl).result
      rw [SbrkRefuses, not_or] at granted
      rcases moved with ⟨_, same, _⟩ | ⟨low, _⟩
      · simp only at same
        exact granted.2 ⟨failed, same.trans failed⟩
      · have positive := rep.positive
        simp only at low
        omega
    · simp only [if_neg failed] at returns
      -- the header of the new block says the rounded size, which the heap does not hold
      apply wraps
      cases blocks with
      | nil =>
        simp only [rep.first, linkOf, if_true] at returns
        apply (returns _ rfl).room
        rw [payloadSize, fromData_data]
        simp only [size_setNext, size_setFree, size_setSize]
        exact Nat.mod_eq_of_lt (roundRequest_lt size)
      | cons b rest =>
        obtain ⟨c, member, last⟩ := lastAddr_mem (List.cons_ne_nil b rest) 0
        have bounds := rep.tiles.bounds_of_mem member
        simp only [if_neg rep.first_ne_zero] at returns
        apply (returns _ rfl).room
        rw [payloadSize, fromData_data]
        exact bump_size _ _ (last ▸ Nat.le_trans c.addr_le_stop bounds.2.2)
  · exact none b (List.mem_append_right _ List.mem_cons_self) fits

end Call

/-- A request in which nothing wraps around has such an outcome. -/
theorem malloc_outcome {h : KernelHeap} {s : MallocSystem} {blocks : List Block} {size : ℕ}
    (heap : ServedHeap h s blocks) (word : size < 2 ^ 64)
    (served : RequestServed s.heap size (HeapServes s.heap size)) {fuel ptr : ℕ} {h' : KernelHeap}
    (returns : malloc sbrk fuel s.heap size = some (ptr, h')) : MallocOutcome h.heapEnd s.heap size ptr h' := by
  have rep := heap.owned.rep
  have fits := (heapServes_iff rep size).symm
  obtain ⟨blocks', shape, effect⟩ := malloc_served true rep (by rwa [fits]) returns
  refine ⟨?_, ?_⟩
  · by_cases null : ptr = 0
    · subst null
      left
      have same : blocks' = blocks := by
        generalize ptr : 0 = result at shape
        cases shape with
        | null => rfl
        | take => simp only [MemoryBlock.data, headerSize] at ptr; omega
        | bump => simp only [MemoryBlock.data, headerSize] at ptr; omega
      subst same
      refine ⟨rfl, effect.rep.tiles.stop_unique rep.tiles, fun list => ?_⟩
      rw [blockList_iff effect.rep, blockList_iff rep]
    · right
      obtain ⟨_, _, rep', b, member, rfl, enough, lower, upper⟩ := heap.malloc_block word served returns null
      rw [payloadSize_of_mem rep' member, heap.heapLimit]
      exact ⟨Nat.le_trans lower (Nat.le_add_right _ _), enough, upper⟩
  · rcases effect.extends_ with same | ⟨_, raised, _⟩
    · exact Nat.le_of_eq same.symm
    · rw [raised]
      exact Nat.le_add_right _ _

/-- In every state that a served run reaches, a call of `malloc` returns `NULL` and changes nothing, or a pointer
to enough bytes inside the heap, and does not lower the break, exactly when no sum wraps around that decides
over the request. -/
theorem malloc_sound_iff {h : KernelHeap} (fresh : FreshHeap h) {calls : List HeapCall} {s : MallocSystem}
    (run : Path (ServedStep h.heapEnd) ⟨h, fun _ => none⟩ calls s) {size : ℕ} (word : size < 2 ^ 64) :
    MallocSound h.heapEnd s.heap size ↔ RequestServed s.heap size (HeapServes s.heap size) := by
  obtain ⟨blocks, heap, _⟩ := served_run fresh (fun _ => True) trivial (fun _ _ _ _ _ _ => trivial) run
  have rep := heap.owned.rep
  constructor
  · intro sound
    rw [heapServes_iff rep]
    by_contra unserved
    rw [RequestServed, not_or, not_or] at unserved
    obtain ⟨nonzero, short, wraps⟩ := unserved
    by_cases fits : ∃ b ∈ blocks, b.Fits (roundRequest size)
    · exact malloc_short rep word (Nat.lt_of_not_le fun large => short ⟨fits, large⟩) fits sound
    · have none : ∀ b ∈ blocks, ¬b.Fits (roundRequest size) := fun b member here => fits ⟨b, member, here⟩
      have granted := fun refuses => wraps ⟨fits, Or.inl refuses⟩
      have exact64 := fun room => wraps ⟨fits, Or.inr room⟩
      exact malloc_wraps rep nonzero none granted exact64 sound
  · intro served
    exact ⟨malloc_total size sbrk rep, fun fuel ptr h' returns => malloc_outcome heap word served returns⟩

theorem malloc_sound_iff_sample :
    ∃ s, Path (ServedStep 0x201000) ⟨sampleHeap, fun _ => none⟩ [.malloc 100] s ∧
      MallocSound 0x201000 s.heap (2 ^ 63) := by
  have request : RequestFits sampleHeap 100 := ⟨by decide, by decide⟩
  have run : Path (ServedStep 0x201000) ⟨sampleHeap, fun _ => none⟩ [.malloc 100] _ :=
    .cons (.of_fits 1 0x201018 _ (by decide) request (by decide) rfl) (.nil _)
  refine ⟨_, run, (malloc_sound_iff sampleFresh run (by decide)).mpr (RequestFits.served ⟨by decide, ?_⟩ _ ?_)⟩
  · change 0x201080 + (headerSize + roundRequest (2 ^ 63)) < 2 ^ 64 + 0x200000
    decide
  · change 0x201080 < 2 ^ 64
    decide

/-- A request of almost 2^64 bytes is granted, and the break goes down to the end of the kernel. -/
theorem malloc_sound_fails : ¬MallocSound 0x201000 sampleHeap 0xFFFFFFFFFFFFEFE8 := by
  rintro ⟨_, sound⟩
  have raises := (sound 1 _ _ rfl).raises
  exact absurd raises (by decide)

end RaryOS.Soundness
