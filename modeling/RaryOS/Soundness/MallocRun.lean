import RaryOS.Core.Path
import RaryOS.Proofs.MallocCalls
import RaryOS.Proofs.MallocRelease

/-! # The heap over whole runs

A run starts with an empty heap and consists of `malloc` and `free` calls, of refused extensions, and
of what the rest of the kernel writes: to bytes it asked `malloc` for, and to bytes `sbrk` has not
handed out. A `free` is given `NULL` or a live pointer.
-/

namespace RaryOS.Soundness

open RaryOS.Core RaryOS.Model

/-- The heap, and the live pointers with the sizes they were requested with. -/
structure MallocSystem where
  heap : KernelHeap
  live : ℕ → Option ℕ

inductive MallocCall where
  | malloc (size : ℕ) (grant : Bool)
  | free (ptr : ℕ)
  | write (address : ℕ) (value : BitVec 8)

/-- The bytes code other than the allocator may write. -/
def MallocSystem.Foreign (start : ℕ) (s : MallocSystem) (address : ℕ) : Prop :=
  (∃ ptr request, s.live ptr = some request ∧ ptr ≤ address ∧ address < ptr + request) ∨
    address < start ∨ s.heap.heapEnd ≤ address

/-- One step; `grant` says whether an extension of the heap is refused out of hand. -/
inductive MallocStep (start : ℕ) : MallocSystem → MallocCall → MallocSystem → Prop
  | malloc {s : MallocSystem} {size fuel ptr : ℕ} {grant : Bool} {heap : KernelHeap} : size < 2 ^ 62 →
      malloc (extendBy grant) fuel s.heap size = some (ptr, heap) → ptr ≠ 0 →
      MallocStep start s (.malloc size grant) ⟨heap, Function.update s.live ptr (some size)⟩
  | null {s : MallocSystem} {size fuel : ℕ} {grant : Bool} {heap : KernelHeap} : size < 2 ^ 62 →
      malloc (extendBy grant) fuel s.heap size = some (0, heap) →
      MallocStep start s (.malloc size grant) ⟨heap, s.live⟩
  | free {s : MallocSystem} {ptr fuel : ℕ} {heap : KernelHeap} : ptr = 0 ∨ s.live ptr ≠ none →
      free fuel s.heap ptr = some heap →
      MallocStep start s (.free ptr) ⟨heap, Function.update s.live ptr none⟩
  | write {s : MallocSystem} {address : ℕ} (value : BitVec 8) : s.Foreign start address →
      MallocStep start s (.write address value)
        ⟨{ s.heap with mem := s.heap.mem.store8 address value }, s.live⟩

/-- The blocks tile the heap, and the live pointers are those of the live blocks. -/
structure MallocOwned (start : ℕ) (s : MallocSystem) (blocks : List Block) : Prop where
  rep : HeapRep start s.heap blocks
  live : ∀ ptr request, s.live ptr = some request ↔ LiveIn blocks ptr request

/-- The length of the payload behind a pointer, as its header has it. -/
def payloadSize (m : Memory) (ptr : ℕ) : ℕ := MemoryBlock.size m (MemoryBlock.fromData ptr)

theorem payloadSize_of_mem {start : ℕ} {h : KernelHeap} {blocks : List Block} (rep : HeapRep start h blocks)
    {b : Block} (member : b ∈ blocks) : payloadSize h.mem (MemoryBlock.data b.addr) = b.size := by
  obtain ⟨before, after, rfl⟩ := List.append_of_mem member
  rw [payloadSize, fromData_data, (headers_append.mp rep.headers).2.1.size]

namespace MallocOwned

variable {start : ℕ} {s : MallocSystem} {blocks : List Block}

theorem live_ne_none (owned : MallocOwned start s blocks) {ptr : ℕ} :
    s.live ptr ≠ none ↔ ∃ request, LiveIn blocks ptr request := by
  simp only [Option.ne_none_iff_exists', owned.live]

/-- The block of a live pointer, and what its header says. -/
theorem block (owned : MallocOwned start s blocks) {ptr request : ℕ}
    (live : s.live ptr = some request) :
    ∃ b ∈ blocks, MemoryBlock.data b.addr = ptr ∧ b.request = some request ∧
      request ≤ b.size ∧ payloadSize s.heap.mem ptr = b.size := by
  obtain ⟨b, member, rfl, request⟩ := (owned.live ptr request).mp live
  exact ⟨b, member, rfl, request, owned.rep.fits b member _ request, payloadSize_of_mem owned.rep member⟩

/-- After a call of `malloc`. -/
theorem malloc_step (owned : MallocOwned start s blocks) {size ptr : ℕ} {heap : KernelHeap}
    {blocks' : List Block} (effect : MallocEffect start s.heap blocks size ptr heap blocks')
    (nonnull : ptr ≠ 0) :
    MallocOwned start ⟨heap, Function.update s.live ptr (some size)⟩ blocks' := by
  refine ⟨effect.rep, fun p r => ?_⟩
  rw [effect.live, ← owned.live]
  by_cases same : p = ptr
  · subst same
    have fresh := effect.fresh nonnull r
    rw [← owned.live] at fresh
    simp only [Function.update_self, Option.some.injEq, fresh, false_or, ne_eq, nonnull,
      not_false_eq_true, true_and]
    exact eq_comm
  · simp only [Function.update_of_ne same, same, false_and, and_false, or_false]

theorem null_step (owned : MallocOwned start s blocks) {size : ℕ} {heap : KernelHeap}
    {blocks' : List Block} (effect : MallocEffect start s.heap blocks size 0 heap blocks') :
    MallocOwned start ⟨heap, s.live⟩ blocks' :=
  ⟨effect.rep, fun p r => by
    rw [effect.live, owned.live]
    simp only [ne_eq, not_true_eq_false, false_and, or_false]⟩

/-- After a call of `free`. -/
theorem free_step (owned : MallocOwned start s blocks) {ptr : ℕ} {heap : KernelHeap}
    {blocks' : List Block} (effect : FreeEffect start s.heap blocks ptr heap blocks') :
    MallocOwned start ⟨heap, Function.update s.live ptr none⟩ blocks' := by
  refine ⟨effect.rep, fun p r => ?_⟩
  rw [effect.live, ← owned.live]
  by_cases same : p = ptr
  · simp only [same, Function.update_self, reduceCtorEq, ne_eq, not_true_eq_false, and_false]
  · simp only [Function.update_of_ne same, ne_eq, same, not_false_eq_true, and_true]

/-- No foreign byte lies in a header. -/
theorem write_step (owned : MallocOwned start s blocks) {address : ℕ} (value : BitVec 8)
    (foreign : s.Foreign start address) :
    MallocOwned start ⟨{ s.heap with mem := s.heap.mem.store8 address value }, s.live⟩ blocks := by
  have rep := owned.rep
  refine ⟨⟨rep.positive, rep.endSmall, rep.limitSmall, rep.tiles, ?_, rep.first, rep.fits⟩, owned.live⟩
  refine rep.headers.congr fun b member query lower upper => Memory.store8_apply_of_ne _ _ ?_
  have bounds := rep.tiles.bounds_of_mem member
  have length := b.addr_le_stop
  rintro rfl
  rcases foreign with ⟨ptr, request, live, inside, bound⟩ | below | above
  · obtain ⟨c, memC, rfl, _, fits, _⟩ := owned.block live
    simp only [MemoryBlock.data] at inside bound
    have stop : c.stop = c.addr + headerSize + c.size := rfl
    rcases rep.tiles.eq_or_disjoint memC member with rfl | before | after <;> omega
  · omega
  · omega

end MallocOwned

/-- Half of the address space is enough for the heap, so that no request of a step wraps around. -/
structure LowHeap (h : KernelHeap) : Prop where
  endSmall : h.heapEnd < 2 ^ 63
  limitSmall : h.heapLimit < 2 ^ 63

/-- `malloc` moves the break up to the limit at most. -/
theorem LowHeap.malloc {start size ptr : ℕ} {h h' : KernelHeap} {blocks blocks' : List Block} (low : LowHeap h)
    (effect : MallocEffect start h blocks size ptr h' blocks') : LowHeap h' := by
  refine ⟨?_, effect.limits.2 ▸ low.limitSmall⟩
  rcases effect.extends_ with same | ⟨_, _, room⟩
  · exact same ▸ low.endSmall
  · exact Nat.lt_of_le_of_lt room low.limitSmall

/-- Every step keeps the invariant. -/
theorem MallocStep.owned {start : ℕ} {s t : MallocSystem} {call : MallocCall}
    (step : MallocStep start s call t) (owned : ∃ blocks, MallocOwned start s blocks ∧ LowHeap s.heap) :
    ∃ blocks, MallocOwned start t blocks ∧ LowHeap t.heap := by
  obtain ⟨blocks, owned, low⟩ := owned
  cases step with
  | malloc small returns nonnull =>
    obtain ⟨blocks', effect⟩ := malloc_effect _ owned.rep (.of_lt low.endSmall small) returns
    exact ⟨blocks', owned.malloc_step effect nonnull, low.malloc effect⟩
  | null small returns =>
    obtain ⟨blocks', effect⟩ := malloc_effect _ owned.rep (.of_lt low.endSmall small) returns
    exact ⟨blocks', owned.null_step effect, low.malloc effect⟩
  | free allowed returns =>
    rw [owned.live_ne_none] at allowed
    have effect := free_effect owned.rep allowed returns
    obtain ⟨_, limit, ends⟩ := effect.limits
    exact ⟨_, owned.free_step effect, ends ▸ low.endSmall, limit ▸ low.limitSmall⟩
  | write value foreign => exact ⟨blocks, owned.write_step value foreign, low.endSmall, low.limitSmall⟩

/-- A call of the allocator, as opposed to a write by its clients. -/
def MallocCall.IsCall : MallocCall → Prop
  | .write _ _ => False
  | _ => True

/-- No call writes a byte of the payload of a live block, the freed one included. -/
theorem MallocStep.frame {start : ℕ} {s t : MallocSystem} {call : MallocCall} {blocks : List Block}
    (step : MallocStep start s call t) (owned : MallocOwned start s blocks) (low : LowHeap s.heap)
    (isCall : call.IsCall) {ptr request query : ℕ} (live : s.live ptr = some request) (lower : ptr ≤ query)
    (upper : query < ptr + payloadSize s.heap.mem ptr) : t.heap.mem query = s.heap.mem query := by
  obtain ⟨b, member, rfl, live, _, size⟩ := owned.block live
  have occupied : b.request ≠ none := by
    rw [live]
    exact Option.some_ne_none _
  have inside : query < b.stop := by
    rw [size] at upper
    exact upper
  cases step with
  | malloc small returns _ =>
    obtain ⟨_, effect⟩ := malloc_effect _ owned.rep (.of_lt low.endSmall small) returns
    exact effect.frame b member occupied query lower inside
  | null small returns =>
    obtain ⟨_, effect⟩ := malloc_effect _ owned.rep (.of_lt low.endSmall small) returns
    exact effect.frame b member occupied query lower inside
  | free allowed returns =>
    rw [owned.live_ne_none] at allowed
    have effect := free_effect owned.rep allowed returns
    exact effect.frame b member occupied query lower inside
  | write => exact isCall.elim

/-- An empty heap, before the first `malloc`. -/
structure EmptyHeap (h : KernelHeap) : Prop where
  positive : 0 < h.heapEnd
  endSmall : h.heapEnd < 2 ^ 63
  limitSmall : h.heapLimit < 2 ^ 63
  first : h.firstBlock = 0

theorem EmptyHeap.owned {h : KernelHeap} (empty : EmptyHeap h) :
    MallocOwned h.heapEnd ⟨h, fun _ => none⟩ [] where
  rep := ⟨empty.positive, .of_lt empty.endSmall, .of_lt empty.limitSmall, rfl, trivial, empty.first,
    fun b member => (List.not_mem_nil member).elim⟩
  live ptr request := by
    constructor
    · intro live
      cases live
    · rintro ⟨b, member, _⟩
      cases member

/-- In every state a run reaches, the block list tiles what `sbrk` has handed out, live payloads are
disjoint and hold what was requested, every further call returns, and no call writes to the payload
of a live block. -/
theorem malloc_tiles {h : KernelHeap} (empty : EmptyHeap h) {calls : List MallocCall} {s : MallocSystem}
    (run : Path (MallocStep h.heapEnd) ⟨h, fun _ => none⟩ calls s) :
    (∃ blocks, BlockTiles h.heapEnd blocks s.heap.heapEnd ∧ Headers s.heap.mem blocks 0 ∧
      s.heap.firstBlock = linkOf blocks 0 ∧
      ∀ ptr request, s.live ptr = some request ↔ LiveIn blocks ptr request) ∧
    (∀ ptr request, s.live ptr = some request → request ≤ payloadSize s.heap.mem ptr) ∧
    (∀ p q, p ≠ q → s.live p ≠ none → s.live q ≠ none →
      p + payloadSize s.heap.mem p ≤ q ∨ q + payloadSize s.heap.mem q ≤ p) ∧
    (∀ size grant, ∃ fuel result, malloc (extendBy grant) fuel s.heap size = some result) ∧
    (∀ ptr, ptr = 0 ∨ s.live ptr ≠ none → ∃ fuel result, free fuel s.heap ptr = some result) ∧
    ∀ call t, MallocStep h.heapEnd s call t → call.IsCall →
      ∀ ptr request query, s.live ptr = some request → ptr ≤ query →
        query < ptr + payloadSize s.heap.mem ptr → t.heap.mem query = s.heap.mem query := by
  obtain ⟨blocks, owned, low⟩ := run.invariant
    (fun s => ∃ blocks, MallocOwned h.heapEnd s blocks ∧ LowHeap s.heap)
    ⟨[], empty.owned, empty.endSmall, empty.limitSmall⟩ fun _ _ _ owned step => step.owned owned
  have rep := owned.rep
  refine ⟨⟨blocks, rep.tiles, rep.headers, rep.first, owned.live⟩, ?_, ?_, ?_, ?_, ?_⟩
  · intro ptr request live
    obtain ⟨b, _, _, _, fits, size⟩ := owned.block live
    exact size ▸ fits
  · intro p q other liveP liveQ
    obtain ⟨_, liveP⟩ := Option.ne_none_iff_exists'.mp liveP
    obtain ⟨_, liveQ⟩ := Option.ne_none_iff_exists'.mp liveQ
    obtain ⟨b, memB, rfl, _, _, sizeB⟩ := owned.block liveP
    obtain ⟨c, memC, rfl, _, _, sizeC⟩ := owned.block liveQ
    rw [sizeB, sizeC]
    have apart := rep.tiles.apart memB memC fun same => other (same ▸ rfl)
    simp only [Block.stop, MemoryBlock.data] at apart ⊢
    omega
  · intro size grant
    obtain ⟨fuel, ptr, heap, returns⟩ := malloc_total size (extendBy grant) rep
    exact ⟨fuel, _, returns⟩
  · intro ptr allowed
    rw [owned.live_ne_none] at allowed
    exact free_total rep allowed
  · intro call t step isCall ptr request query live lower upper
    exact step.frame owned low isCall live lower upper

/-- A heap of 1 MiB behind a kernel that ends at 2 MiB. -/
def sampleHeap : KernelHeap where
  mem := fun _ => 0
  kernelEnd := 0x200000
  heapEnd := 0x201000
  heapLimit := 0x301000

theorem malloc_tiles_sample :
    ∃ s, Path (MallocStep 0x201000) ⟨sampleHeap, fun _ => none⟩ [.malloc 100 true] s ∧
      s.live 0x201018 = some 100 ∧
      ∃ blocks, BlockTiles 0x201000 blocks s.heap.heapEnd ∧ Headers s.heap.mem blocks 0 := by
  have empty : EmptyHeap sampleHeap := ⟨by decide, by decide, by decide, rfl⟩
  have run : Path (MallocStep 0x201000) ⟨sampleHeap, fun _ => none⟩ [.malloc 100 true] _ :=
    .cons (@MallocStep.malloc _ _ _ 1 _ _ _ (by decide) rfl (by decide)) (.nil _)
  obtain ⟨⟨blocks, tiles, headers, _⟩, _⟩ := malloc_tiles empty run
  exact ⟨_, run, rfl, blocks, tiles, headers⟩

end RaryOS.Soundness
