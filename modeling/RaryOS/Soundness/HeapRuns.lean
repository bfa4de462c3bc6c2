import RaryOS.Soundness.MallocRun

/-! # Runs of the heap with requests of any size

Here `malloc` is called with any `size_t`. What the list of blocks is, is read from memory by following the
links. A run is *served* if no sum that decides over a request wraps around; in such runs the blocks tile the
heap, and every step edits their list in one of four ways.
-/

namespace RaryOS.Soundness

open RaryOS.Core RaryOS.Model

/-- What a header of the list says. -/
structure BlockInfo where
  addr : ℕ
  size : ℕ
  free : Bool
deriving DecidableEq, Repr

/-- The headers that the links lead through, from the one at `block` on. -/
inductive BlockList (m : Memory) : ℕ → List BlockInfo → Prop
  | nil : BlockList m 0 []
  | cons {block : ℕ} {rest : List BlockInfo} : block ≠ 0 → BlockList m (MemoryBlock.next m block) rest →
      BlockList m block (⟨block, MemoryBlock.size m block, MemoryBlock.isFree m block⟩ :: rest)

theorem BlockList.unique {m : Memory} {block : ℕ} {first second : List BlockInfo}
    (left : BlockList m block first) (right : BlockList m block second) : first = second := by
  induction left generalizing second with
  | nil =>
    cases right with
    | nil => rfl
    | cons nonzero _ => exact absurd rfl nonzero
  | cons nonzero _ ih =>
    cases right with
    | nil => exact absurd rfl nonzero
    | cons _ rest => rw [ih rest]

/-- The first header of a list. -/
theorem blockList_cons_iff {m : Memory} {block : ℕ} {info : BlockInfo} {rest : List BlockInfo} :
    BlockList m block (info :: rest) ↔
      block ≠ 0 ∧ info = ⟨block, MemoryBlock.size m block, MemoryBlock.isFree m block⟩ ∧
        BlockList m (MemoryBlock.next m block) rest := by
  constructor
  · intro list
    cases list with
    | cons nonzero tail => exact ⟨nonzero, rfl, tail⟩
  · rintro ⟨nonzero, rfl, tail⟩
    exact .cons nonzero tail

/-- A free block of the list is as long as the rounded request. -/
def HeapServes (h : KernelHeap) (size : ℕ) : Prop :=
  ∃ list, BlockList h.mem h.firstBlock list ∧ ∃ b ∈ list, b.free = true ∧ roundRequest size ≤ b.size

inductive HeapCall where
  | malloc (size : ℕ)
  | free (ptr : ℕ)
  | write (address : ℕ) (value : BitVec 8)

/-- One step: a call for any size, a call for `NULL` or a live pointer, or a byte written by other code. -/
inductive HeapStep (start : ℕ) : MallocSystem → HeapCall → MallocSystem → Prop
  | malloc {s : MallocSystem} {size fuel ptr : ℕ} {heap : KernelHeap} : size < 2 ^ 64 →
      malloc sbrk fuel s.heap size = some (ptr, heap) →
      HeapStep start s (.malloc size)
        ⟨heap, if ptr = 0 then s.live else Function.update s.live ptr (some size)⟩
  | free {s : MallocSystem} {ptr fuel : ℕ} {heap : KernelHeap} : ptr = 0 ∨ s.live ptr ≠ none →
      free fuel s.heap ptr = some heap →
      HeapStep start s (.free ptr) ⟨heap, Function.update s.live ptr none⟩
  | write {s : MallocSystem} {address : ℕ} (value : BitVec 8) : s.Foreign start address →
      HeapStep start s (.write address value)
        ⟨{ s.heap with mem := s.heap.mem.store8 address value }, s.live⟩

/-- A step in which no sum wraps around that decides over a request. -/
def ServedStep (start : ℕ) (s : MallocSystem) (call : HeapCall) (t : MallocSystem) : Prop :=
  HeapStep start s call t ∧ ∀ size, call = .malloc size → RequestServed s.heap size (HeapServes s.heap size)

/-- A call for a size that fits, and a call for a live pointer. -/
theorem ServedStep.of_fits {start size : ℕ} {s : MallocSystem} (fuel ptr : ℕ) (h : KernelHeap)
    (word : size < 2 ^ 64) (fits : RequestFits s.heap size) (small : s.heap.heapEnd < 2 ^ 64)
    (returns : malloc sbrk fuel s.heap size = some (ptr, h)) :
    ServedStep start s (.malloc size) ⟨h, if ptr = 0 then s.live else Function.update s.live ptr (some size)⟩ := by
  refine ⟨.malloc word returns, fun size call => ?_⟩
  cases call
  exact fits.served _ small

theorem ServedStep.of_live {start ptr : ℕ} {s : MallocSystem} (fuel : ℕ) (h : KernelHeap) (live : s.live ptr ≠ none)
    (returns : free fuel s.heap ptr = some h) :
    ServedStep start s (.free ptr) ⟨h, Function.update s.live ptr none⟩ := by
  refine ⟨.free (Or.inr live) returns, fun size call => ?_⟩
  cases call

/-- A heap before the first call of `malloc`. The 16 bytes below it are what `split` asks a block to have
to spare. -/
structure FreshHeap (h : KernelHeap) : Prop where
  low : 16 ≤ h.heapEnd
  endSmall : h.heapEnd < 2 ^ 64
  limitSmall : h.heapLimit < 2 ^ 64
  first : h.firstBlock = 0

theorem sampleFresh : FreshHeap sampleHeap := ⟨by decide, by decide, by decide, rfl⟩

/-! ## The blocks in memory -/

def blockInfo (b : Block) : BlockInfo := ⟨b.addr, b.size, b.request.isNone⟩

theorem blockList_of_headers {m : Memory} {start stop : ℕ} {blocks : List Block}
    (headers : Headers m blocks 0) (tiles : BlockTiles start blocks stop) (positive : 0 < start) :
    BlockList m (linkOf blocks 0) (blocks.map blockInfo) := by
  induction blocks generalizing start with
  | nil => exact .nil
  | cons b rest ih =>
    obtain ⟨header, headers⟩ := headers
    obtain ⟨rfl, ordered, tail⟩ := tiles
    have later := ih headers tail (by omega)
    rw [← header.next] at later
    have list := BlockList.cons (Nat.pos_iff_ne_zero.mp positive) later
    rwa [header.size, header.free] at list

/-- The list of the heap is that of its blocks. -/
theorem blockList_iff {start : ℕ} {h : KernelHeap} {blocks : List Block} (rep : HeapRep start h blocks)
    (list : List BlockInfo) : BlockList h.mem h.firstBlock list ↔ list = blocks.map blockInfo := by
  have here := blockList_of_headers rep.headers rep.tiles rep.positive
  rw [← rep.first] at here
  constructor
  · exact fun there => there.unique here
  · rintro rfl
    exact here

theorem heapServes_iff {start : ℕ} {h : KernelHeap} {blocks : List Block} (rep : HeapRep start h blocks)
    (size : ℕ) : HeapServes h size ↔ ∃ b ∈ blocks, b.Fits (roundRequest size) := by
  simp only [HeapServes, blockList_iff rep, exists_eq_left, List.mem_map, exists_exists_and_eq_and, blockInfo,
    Option.isNone_iff_eq_none, Block.Fits]

/-! ## Served runs -/

/-- What a step does to the blocks. -/
inductive BlocksStep (h : KernelHeap) (blocks : List Block) : List Block → Prop
  | malloc {size ptr : ℕ} {blocks' : List Block} : MallocBlocks h blocks size ptr blocks' →
      BlocksStep h blocks blocks'
  | free (ptr : ℕ) : BlocksStep h blocks (freeBlocks ptr blocks)
  | write : BlocksStep h blocks blocks

/-- The blocks tile the heap, which has kept its limits; its break has stayed where it was or is not above
the limit. -/
structure ServedHeap (h : KernelHeap) (s : MallocSystem) (blocks : List Block) : Prop where
  owned : MallocOwned h.heapEnd s blocks
  kernelEnd : s.heap.kernelEnd = h.kernelEnd
  heapLimit : s.heap.heapLimit = h.heapLimit
  grown : s.heap.heapEnd = h.heapEnd ∨ s.heap.heapEnd ≤ s.heap.heapLimit

theorem FreshHeap.served {h : KernelHeap} (fresh : FreshHeap h) : ServedHeap h ⟨h, fun _ => none⟩ [] where
  owned := by
    have low := fresh.low
    have endSmall := fresh.endSmall
    have limitSmall := fresh.limitSmall
    refine ⟨⟨by omega, ⟨endSmall, by simp only; omega⟩, ⟨limitSmall, by simp only; omega⟩, rfl, trivial, fresh.first,
      fun b member => absurd member List.not_mem_nil⟩, fun ptr request => ?_⟩
    constructor
    · intro live
      cases live
    · rintro ⟨b, member, _⟩
      cases member
  kernelEnd := rfl
  heapLimit := rfl
  grown := Or.inl rfl

/-- One step of a served run. -/
theorem ServedStep.blocks {h : KernelHeap} {s t : MallocSystem} {call : HeapCall} {blocks : List Block}
    (step : ServedStep h.heapEnd s call t) (heap : ServedHeap h s blocks) :
    ∃ blocks', ServedHeap h t blocks' ∧ BlocksStep s.heap blocks blocks' := by
  obtain ⟨step, served⟩ := step
  have rep := heap.owned.rep
  cases step with
  | @malloc size _ ptr _ _ returns =>
    have served := served size rfl
    rw [heapServes_iff rep] at served
    obtain ⟨blocks', shape, effect⟩ := malloc_served true rep served returns
    obtain ⟨kernelEnd, limit⟩ := effect.limits
    refine ⟨blocks', ⟨?_, kernelEnd.trans heap.kernelEnd, limit.trans heap.heapLimit, ?_⟩, .malloc shape⟩
    · by_cases null : ptr = 0
      · subst null
        rw [if_pos rfl]
        exact heap.owned.null_step effect
      · rw [if_neg null]
        exact heap.owned.malloc_step effect null
    · simp only [limit]
      rcases effect.extends_ with same | ⟨_, _, room⟩
      · rw [same]
        exact heap.grown
      · exact Or.inr room
  | free allowed returns =>
    rw [heap.owned.live_ne_none] at allowed
    have effect := free_effect rep allowed returns
    obtain ⟨kernelEnd, limit, ends⟩ := effect.limits
    refine ⟨_, ⟨heap.owned.free_step effect, kernelEnd.trans heap.kernelEnd, limit.trans heap.heapLimit, ?_⟩,
      .free _⟩
    simp only [ends, limit]
    exact heap.grown
  | write value foreign =>
    exact ⟨blocks, ⟨heap.owned.write_step value foreign, heap.kernelEnd, heap.heapLimit, heap.grown⟩, .write⟩

/-- The block behind a pointer that a served call returns lies between the start of the heap and its limit. -/
theorem ServedHeap.malloc_block {h : KernelHeap} {s : MallocSystem} {blocks : List Block}
    (heap : ServedHeap h s blocks) {size : ℕ} (word : size < 2 ^ 64)
    (served : RequestServed s.heap size (HeapServes s.heap size)) {fuel ptr : ℕ} {h' : KernelHeap}
    (returns : malloc sbrk fuel s.heap size = some (ptr, h')) (nonnull : ptr ≠ 0) :
    ∃ blocks', BlocksStep s.heap blocks blocks' ∧ HeapRep h.heapEnd h' blocks' ∧
      ∃ b ∈ blocks', MemoryBlock.data b.addr = ptr ∧ size ≤ b.size ∧ h.heapEnd ≤ b.addr ∧
        b.stop ≤ h.heapLimit := by
  have step : ServedStep h.heapEnd s (.malloc size) _ :=
    ⟨.malloc word returns, fun other same => by cases same; exact served⟩
  obtain ⟨blocks', heap', edit⟩ := step.blocks heap
  have rep := heap'.owned.rep
  have live := heap'.owned.live ptr size
  simp only [if_neg nonnull, Function.update_self, true_iff] at live
  obtain ⟨b, member, address, request⟩ := live
  have bounds := rep.tiles.bounds_of_mem member
  refine ⟨blocks', edit, rep, b, member, address, rep.fits b member size request, bounds.1, ?_⟩
  have length := b.addr_le_stop
  have limit := heap'.heapLimit
  simp only [headerSize] at length
  rcases heap'.grown with same | below
  · omega
  · omega

/-- The invariant rule for served runs: what every edit of the list preserves holds of the blocks. -/
theorem served_run {h : KernelHeap} (fresh : FreshHeap h) (P : List Block → Prop) (nil : P [])
    (preserved : ∀ heap blocks blocks', HeapRep h.heapEnd heap blocks → P blocks → BlocksStep heap blocks blocks' →
      P blocks') {calls : List HeapCall} {s : MallocSystem}
    (run : Path (ServedStep h.heapEnd) ⟨h, fun _ => none⟩ calls s) :
    ∃ blocks, ServedHeap h s blocks ∧ P blocks := by
  apply run.invariant (fun s => ∃ blocks, ServedHeap h s blocks ∧ P blocks) ⟨[], fresh.served, nil⟩
  rintro s call t ⟨blocks, heap, holds⟩ step
  obtain ⟨blocks', heap', edit⟩ := step.blocks heap
  exact ⟨blocks', heap', preserved _ _ _ heap.owned.rep holds edit⟩

end RaryOS.Soundness
