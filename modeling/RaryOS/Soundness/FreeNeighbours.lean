import RaryOS.Proofs.MallocNeighbours
import RaryOS.Soundness.HeapRuns

/-! # What the sweep of `free` is for

In a served run no two consecutive blocks of the list are free. So a request that a free block can serve leaves
no trace once it is freed: the two parts of the block become one again, and nothing else is merged. A request
that wraps around breaks that, since its block extends over memory in which the headers of other blocks lie.
-/

namespace RaryOS.Soundness

open RaryOS.Core RaryOS.Model

/-- The list ends, and no two consecutive blocks of it are free. -/
def NoFreeNeighbours (h : KernelHeap) : Prop :=
  ∃ list, BlockList h.mem h.firstBlock list ∧ list.IsChain fun b c => ¬(b.free = true ∧ c.free = true)

/-- `malloc` of this size and `free` of what it returned return, and restore the list. -/
def Restores (h : KernelHeap) (size : ℕ) : Prop :=
  (∃ fuel ptr h' h'', malloc sbrk fuel h size = some (ptr, h') ∧ ∃ fuel', free fuel' h' ptr = some h'') ∧
    ∀ list, BlockList h.mem h.firstBlock list → ∀ fuel ptr h', malloc sbrk fuel h size = some (ptr, h') →
      ∀ fuel' h'', free fuel' h' ptr = some h'' → BlockList h''.mem h''.firstBlock list

/-- Free blocks stay apart over a served run. -/
theorem served_isChain {h : KernelHeap} (fresh : FreshHeap h) {calls : List HeapCall} {s : MallocSystem}
    (run : Path (ServedStep h.heapEnd) ⟨h, fun _ => none⟩ calls s) :
    ∃ blocks, ServedHeap h s blocks ∧ blocks.IsChain Block.Apart := by
  refine served_run fresh _ List.isChain_nil (fun heap blocks blocks' _ chain step => ?_) run
  cases step with
  | malloc shape => exact shape.isChain chain
  | free ptr => exact freeBlocks_isChain ptr chain
  | write => exact chain

/-- In every state that a served run reaches, no two consecutive blocks are free. -/
theorem no_free_neighbours {h : KernelHeap} (fresh : FreshHeap h) {calls : List HeapCall} {s : MallocSystem}
    (run : Path (ServedStep h.heapEnd) ⟨h, fun _ => none⟩ calls s) : NoFreeNeighbours s.heap := by
  obtain ⟨blocks, heap, chain⟩ := served_isChain fresh run
  refine ⟨_, (blockList_iff heap.owned.rep _).mpr rfl, (List.isChain_map blockInfo).mpr (chain.imp ?_)⟩
  intro b c apart both
  simp only [blockInfo, Option.isNone_iff_eq_none] at both
  exact apart both

/-! Three blocks on the sample heap, of which the first and the last are freed. -/

def mallocHeap (h : KernelHeap) (size : ℕ) : KernelHeap := ((malloc sbrk 9 h size).getD (0, h)).2

def freeHeap (h : KernelHeap) (ptr : ℕ) : KernelHeap := (free 9 h ptr).getD h

def threeBlocks : KernelHeap := mallocHeap (mallocHeap (mallocHeap sampleHeap 100) 40) 200

def outerFreed : KernelHeap := freeHeap (freeHeap threeBlocks 0x201018) 0x2010D8

theorem outerFreed_run : ∃ live, Path (ServedStep 0x201000) ⟨sampleHeap, fun _ => none⟩
    [.malloc 100, .malloc 40, .malloc 200, .free 0x201018, .free 0x2010D8] ⟨outerFreed, live⟩ :=
  ⟨_, .cons (.of_fits 9 0x201018 (mallocHeap sampleHeap 100) (by decide) ⟨by decide, by decide⟩ (by decide) rfl)
    (.cons (.of_fits 9 0x201098 (mallocHeap (mallocHeap sampleHeap 100) 40) (by decide) ⟨by decide, by decide⟩
      (by decide) rfl)
      (.cons (.of_fits 9 0x2010D8 threeBlocks (by decide) ⟨by decide, by decide⟩ (by decide) rfl)
        (.cons (.of_live 9 (freeHeap threeBlocks 0x201018) (by decide) rfl)
          (.cons (.of_live 9 outerFreed (by decide) rfl) (.nil _)))))⟩

theorem outerFreed_list : BlockList outerFreed.mem outerFreed.firstBlock
    [⟨0x201000, 104, true⟩, ⟨0x201080, 40, false⟩, ⟨0x2010C0, 200, true⟩] := by
  have second : MemoryBlock.next outerFreed.mem outerFreed.firstBlock = 0x201080 := by decide
  have third : MemoryBlock.next outerFreed.mem 0x201080 = 0x2010C0 := by decide
  have last : MemoryBlock.next outerFreed.mem 0x2010C0 = 0 := by decide
  refine blockList_cons_iff.mpr ⟨by decide, by decide, ?_⟩
  rw [second]
  refine blockList_cons_iff.mpr ⟨by decide, by decide, ?_⟩
  rw [third]
  refine blockList_cons_iff.mpr ⟨by decide, by decide, ?_⟩
  rw [last]
  exact .nil

theorem no_free_neighbours_sample :
    ∃ s, Path (ServedStep 0x201000) ⟨sampleHeap, fun _ => none⟩
        [.malloc 100, .malloc 40, .malloc 200, .free 0x201018, .free 0x2010D8] s ∧
      BlockList s.heap.mem s.heap.firstBlock
        [⟨0x201000, 104, true⟩, ⟨0x201080, 40, false⟩, ⟨0x2010C0, 200, true⟩] ∧
      NoFreeNeighbours s.heap := by
  obtain ⟨live, run⟩ := outerFreed_run
  exact ⟨_, run, outerFreed_list, no_free_neighbours sampleFresh run⟩

/-- A free block that serves a request, and the release of what was carved from it. -/
theorem restores_of_isChain {start size : ℕ} {h : KernelHeap} {blocks : List Block} (rep : HeapRep start h blocks)
    (chain : blocks.IsChain Block.Apart) (serves : HeapServes h size) : Restores h size := by
  by_cases zero : size = 0
  · refine ⟨⟨0, 0, h, h, by rw [malloc, if_pos zero], 0, rfl⟩, fun list lists fuel ptr h' returns fuel' h'' frees => ?_⟩
    rw [malloc, if_pos zero] at returns
    cases returns
    rw [free, if_pos rfl] at frees
    cases frees
    exact lists
  · rw [heapServes_iff rep] at serves
    rcases mallocBody_cases size rep with ⟨none, _⟩ | ⟨before, b, after, rfl, fits, fuel, found⟩
    · obtain ⟨b, member, fits⟩ := serves
      exact absurd fits (none b member)
    · -- for the list it is a block of a request of no bytes
      obtain ⟨h', returns, effect⟩ : ∃ h', malloc sbrk fuel h size = some (MemoryBlock.data b.addr, h') ∧
          MallocEffect start h (before ++ b :: after) 0 (MemoryBlock.data b.addr) h'
            (before ++ b.carve (roundRequest size) 0 ++ after) :=
        ⟨_, by rw [malloc, if_neg zero, found], rep.take fits (Nat.zero_le _)⟩
      have live := (effect.live (MemoryBlock.data b.addr) 0).mpr
        (Or.inr ⟨by simp only [MemoryBlock.data, headerSize]; omega, rfl, rfl⟩)
      obtain ⟨fuel', h'', frees, freed⟩ := effect.rep.release live
      refine ⟨⟨fuel, _, _, h'', returns, fuel', frees⟩, fun list lists f ptr h₁ returns₁ f' h₂ frees₁ => ?_⟩
      cases malloc_unique returns returns₁
      obtain rfl := free_unique frees frees₁
      have restored := freed.rep
      rw [freeBlocks_carve rep.tiles fits.1 chain] at restored
      rw [blockList_iff rep] at lists
      rwa [blockList_iff restored]

/-- In every state that a served run reaches, whatever a free block can serve is undone by `free`. -/
theorem malloc_free_restores {h : KernelHeap} (fresh : FreshHeap h) {calls : List HeapCall} {s : MallocSystem}
    (run : Path (ServedStep h.heapEnd) ⟨h, fun _ => none⟩ calls s) {size : ℕ} (serves : HeapServes s.heap size) :
    Restores s.heap size := by
  obtain ⟨blocks, heap, chain⟩ := served_isChain fresh run
  exact restores_of_isChain heap.owned.rep chain serves

theorem malloc_free_restores_sample : Restores outerFreed 16 := by
  obtain ⟨live, run⟩ := outerFreed_run
  exact malloc_free_restores sampleFresh run ⟨_, outerFreed_list, _, List.mem_cons_self, rfl, by decide⟩

/-- A free block of almost 2^64 bytes at the break, behind a block of 8 bytes. -/
def wrappedHeap : KernelHeap :=
  let m := MemoryBlock.setNext (MemoryBlock.setFree (MemoryBlock.setSize (fun _ => 0) 0x201000 8) 0x201000 false)
    0x201000 0
  let m := MemoryBlock.setNext (MemoryBlock.setFree (MemoryBlock.setSize m 0x201020 0xFFFFFFFFFFFFFFE8) 0x201020
    false) 0x201020 0
  let m := MemoryBlock.setFree (MemoryBlock.setNext m 0x201000 0x201020) 0x201020 true
  { sampleHeap with mem := m, heapEnd := 0x201020, firstBlock := 0x201000 }

/-- A request that wraps around makes that block. What is left of it by a request of almost as many bytes is
placed below the heap, and its header overwrites the size of the first block. -/
theorem malloc_free_restores_fails :
    ∃ s, Path (HeapStep 0x201000) ⟨sampleHeap, fun _ => none⟩
        [.malloc 8, .malloc 0xFFFFFFFFFFFFFFE8, .free 0x201038] s ∧
      HeapServes s.heap 0xFFFFFFFFFFFFFFC0 ∧ ¬Restores s.heap 0xFFFFFFFFFFFFFFC0 := by
  have run : Path (HeapStep 0x201000) ⟨sampleHeap, fun _ => none⟩
      [.malloc 8, .malloc 0xFFFFFFFFFFFFFFE8, .free 0x201038] _ :=
    .cons (@HeapStep.malloc _ _ _ 1 _ _ (by decide) rfl)
      (.cons (@HeapStep.malloc _ _ _ 2 _ _ (by decide) rfl)
        (.cons (@HeapStep.free _ _ _ 5 wrappedHeap (by decide) rfl) (.nil _)))
  have lists : BlockList wrappedHeap.mem wrappedHeap.firstBlock
      [⟨0x201000, 8, false⟩, ⟨0x201020, 0xFFFFFFFFFFFFFFE8, true⟩] := by
    refine blockList_cons_iff.mpr ⟨by decide, by decide, blockList_cons_iff.mpr ⟨by decide, by decide, ?_⟩⟩
    have last : MemoryBlock.next wrappedHeap.mem (MemoryBlock.next wrappedHeap.mem wrappedHeap.firstBlock) = 0 := by
      decide
    rw [last]
    exact .nil
  refine ⟨_, run, ⟨_, lists, ?_⟩, ?_⟩
  · exact ⟨_, List.mem_cons_of_mem _ List.mem_cons_self, rfl, by decide⟩
  · rintro ⟨_, restores⟩
    have restored := restores _ lists 3 _ _ rfl 6 _ rfl
    exact absurd (blockList_cons_iff.mp restored).2.1 (by decide)

end RaryOS.Soundness
