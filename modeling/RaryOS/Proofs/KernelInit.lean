import RaryOS.Model.Kernel
import RaryOS.Proofs.MallocHeap
import RaryOS.Proofs.PmmInit

/-! # The heap that `kernel_main` sets up

The memory map lies in the kernel image, so building the bitmap leaves it intact and the later walks
read the same entries: the heap starts `kernelBitmapSize` bytes behind the kernel and ends where the
first available region that holds the end of the kernel does.
-/

namespace RaryOS.Model

open RaryOS.Core

/-- An available region that holds the end of the kernel. -/
def MemoryMap.Holds (e : MemoryMap) (kernelEnd : ℕ) : Prop :=
  e.type = 1 ∧ e.addr ≤ kernelEnd ∧ kernelEnd < (e.addr + e.len) % 2 ^ 64

instance (e : MemoryMap) (kernelEnd : ℕ) : Decidable (e.Holds kernelEnd) :=
  inferInstanceAs (Decidable (_ ∧ _))

/-- `heap_limit` after `init_heap`, where `start` is the start of the heap. -/
def heapLimitOf (kernelEnd start : ℕ) : List MemoryMap → ℕ
  | [] => start
  | e :: rest => if e.Holds kernelEnd then (e.addr + e.len) % 2 ^ 64 else heapLimitOf kernelEnd start rest

/-- The sum of the available regions, in `uint64_t`. -/
def availableRam (total : ℕ) : List MemoryMap → ℕ
  | [] => total
  | e :: rest => availableRam (if e.type = 1 then (total + e.len) % 2 ^ 64 else total) rest

theorem heapLimitOf_le {kernelEnd start : ℕ} (bound : ℕ) {entries : List MemoryMap} (low : start ≤ bound)
    (top : availableTop 0 entries ≤ bound) : heapLimitOf kernelEnd start entries ≤ bound := by
  have ends : ∀ e ∈ entries, e.type = 1 → (e.addr + e.len) % 2 ^ 64 ≤ bound :=
    fun e member available => (end_le_availableTop member available).trans top
  clear top
  induction entries with
  | nil => exact low
  | cons e rest ih =>
    rw [heapLimitOf]
    split
    · next holds => exact ends e List.mem_cons_self holds.1
    · exact ih fun e member => ends e (List.mem_cons_of_mem _ member)

/-- One step of a walk over a well-formed map: it is inside, and the next entry follows. -/
theorem MapEntries.step {m : Memory} {stop mmap : ℕ} {e : MemoryMap} {rest : List MemoryMap}
    (map : MapEntries m stop mmap (e :: rest)) (small : stop < 2 ^ 32) :
    mmapInside mmap stop = true ∧ MemoryMap.read m mmap = e ∧
      MapEntries m stop (MemoryMap.next m mmap) rest := by
  cases map with
  | cons large inside tail =>
    refine ⟨mmapInside_of_lt (by omega) small, rfl, ?_⟩
    rwa [MemoryMap.next_eq inside small]

/-- The walk that adds up the available memory stops, after adding every entry once. -/
theorem ramBody_returns {m : Memory} {stop mmap total : ℕ} {entries : List MemoryMap}
    (map : MapEntries m stop mmap entries) (small : stop < 2 ^ 32) :
    Returns (ramBody m stop) (mmap, total) (availableRam total entries) := by
  induction entries generalizing mmap total with
  | nil =>
    cases map
    exact .of_stop (by simp only [ramBody, mmapInside_end small, Bool.false_eq_true, if_false, availableRam])
  | cons e rest ih =>
    obtain ⟨here, entry, tail⟩ := map.step small
    refine .of_step ?_ (ih tail)
    simp only [ramBody, here, entry, if_true]

/-- The search of `init_heap` stops at the first region that holds the end of the kernel. -/
theorem initHeapBody_returns {m : Memory} {kernelEnd start stop mmap : ℕ} {entries : List MemoryMap}
    (map : MapEntries m stop mmap entries) (small : stop < 2 ^ 32) :
    ∃ found, Returns (initHeapBody m kernelEnd stop) mmap found ∧
      found.getD start = heapLimitOf kernelEnd start entries := by
  induction entries generalizing mmap with
  | nil =>
    cases map
    exact ⟨none, .of_stop (by simp only [initHeapBody, mmapInside_end small, Bool.false_eq_true, if_false]),
      rfl⟩
  | cons e rest ih =>
    obtain ⟨here, entry, tail⟩ := map.step small
    rw [heapLimitOf]
    by_cases holds : e.Holds kernelEnd
    · refine ⟨some ((e.addr + e.len) % 2 ^ 64), .of_stop ?_, by rw [if_pos holds, Option.getD_some]⟩
      simp only [initHeapBody, here, entry, if_true]
      exact if_pos holds
    · obtain ⟨found, returns, limit⟩ := ih tail
      refine ⟨found, .of_step ?_ returns, by rw [if_neg holds, limit]⟩
      simp only [initHeapBody, here, entry, if_true]
      exact if_neg holds

/-- What `kernel_main` may rely on at boot: the memory map that the conversion left lies in the kernel
image, and the kernel ends at a physical address above 1 MiB. -/
structure KernelBoot (m : Memory) (mbd : MultibootInfo) (kernelEnd : ℕ) (entries : List MemoryMap) :
    Prop where
  hasMap : mbd.hasMemMap = true
  map : MapEntries m mbd.mmapEnd mbd.mmapAddr entries
  image : mbd.mmapEnd ≤ kernelEnd
  kernel : 0x100000 ≤ kernelEnd
  physical : kernelEnd < 2 ^ 52

/-- The start of the heap. -/
def heapStart (mbd : MultibootInfo) (kernelEnd : ℕ) : ℕ := kernelEnd + kernelBitmapSize mbd.memUpper

theorem kernelBitmapSize_eq (memUpper : ℕ) : kernelBitmapSize memUpper = memUpper % 2 ^ 22 / 32 := by
  rw [kernelBitmapSize]
  omega

theorem kernelBitmapSize_lt (memUpper : ℕ) : kernelBitmapSize memUpper < 2 ^ 17 := by
  rw [kernelBitmapSize_eq]
  omega

/-- The state after booting. -/
structure KernelBooted (m : Memory) (mbd : MultibootInfo) (mbdStart kernelEnd : ℕ)
    (entries : List MemoryMap) (k : Kernel) : Prop where
  accepts : PmmAccepts { mem := m } mbd mbdStart kernelEnd k.pmm
  pmm : PmmInitialized m mbd mbdStart kernelEnd entries k.pmm
  heapEnd : k.heapEnd = heapStart mbd kernelEnd
  heapLimit : k.heapLimit = heapLimitOf kernelEnd (heapStart mbd kernelEnd) entries
  kernelEnd : k.kernelEnd = kernelEnd
  firstBlock : k.firstBlock = 0
  ramMb : k.ramMb = availableRam 0 entries / 1024 / 1024

/-- More fuel does not change a `pmm_init` that returned. -/
theorem pmmInit_mono {fuel fuel' : ℕ} {s : PmmState} {mbd : MultibootInfo} {mbdStart kernelEnd : ℕ}
    {result : Except PmmPanic PmmState}
    (returns : pmmInit fuel s mbd mbdStart kernelEnd = some result) (more : fuel ≤ fuel') :
    pmmInit fuel' s mbd mbdStart kernelEnd = some result := by
  rw [pmmInit] at returns ⊢
  split at returns
  · next hasMap =>
    rw [if_pos hasMap]
    split at returns
    · cases returns
    · next panic scanned =>
      simp only [loop_mono scanned more, returns]
    · next top scanned =>
      simp only [loop_mono scanned more]
      split at returns
      · cases returns
      · next placed released => simp only [loop_mono released more, returns]
  · next noMap => rw [if_neg noMap, returns]

namespace KernelBoot

variable {m : Memory} {mbd : MultibootInfo} {mbdStart kernelEnd : ℕ} {entries : List MemoryMap}

theorem small (mbd : MultibootInfo) : mbd.mmapEnd < 2 ^ 32 := Nat.mod_lt _ (by decide)

theorem apart (boot : KernelBoot m mbd kernelEnd entries) (query : ℕ) (_ : mbd.mmapAddr ≤ query)
    (upper : query < mbd.mmapEnd) :
    query < kernelEnd ∨ kernelEnd + pmmBitmapSizeOf (availableTop 0 entries) ≤ query :=
  Or.inl (Nat.lt_of_lt_of_le upper boot.image)

theorem heapStart_mod (boot : KernelBoot m mbd kernelEnd entries) :
    (kernelEnd + kernelBitmapSize mbd.memUpper) % 2 ^ 64 = heapStart mbd kernelEnd := by
  have size := kernelBitmapSize_lt mbd.memUpper
  have physical := boot.physical
  exact Nat.mod_eq_of_lt (by omega)

/-- The walks after `pmm_init` read the entries of the map. -/
private theorem finish (boot : KernelBoot m mbd kernelEnd entries) {pmm : PmmState}
    (initialized : PmmInitialized m mbd mbdStart kernelEnd entries pmm) :
    Returns (ramBody pmm.mem mbd.mmapEnd) (mbd.mmapAddr, 0) (availableRam 0 entries) ∧
      ∃ found, Returns (initHeapBody pmm.mem kernelEnd mbd.mmapEnd) mbd.mmapAddr found ∧
        found.getD (heapStart mbd kernelEnd) = heapLimitOf kernelEnd (heapStart mbd kernelEnd) entries := by
  have kept : MapEntries pmm.mem mbd.mmapEnd mbd.mmapAddr entries :=
    boot.map.congr fun query _ upper => initialized.outside query
      (Or.inl (Nat.lt_of_lt_of_le upper boot.image))
  exact ⟨ramBody_returns kept (small mbd), initHeapBody_returns kept (small mbd)⟩

/-- `kernel_main` gets past `init_heap` if no available region wraps around. -/
theorem boots (mbdStart : ℕ) (boot : KernelBoot m mbd kernelEnd entries) (noWrap : ∀ e ∈ entries, e.NoWrap) :
    ∃ k, KernelBoots m mbd mbdStart kernelEnd k := by
  obtain ⟨pmm, accepts⟩ : ∃ pmm, PmmAccepts { mem := m } mbd mbdStart kernelEnd pmm :=
    pmmInit_accepts boot.hasMap boot.map boot.apart noWrap
  obtain ⟨_, initialized⟩ := accepts.initialized boot.hasMap boot.map boot.apart
  obtain ⟨⟨ramFuel, ram⟩, found, ⟨heapFuel, heap⟩, _⟩ := boot.finish initialized
  obtain ⟨initFuel, init⟩ := accepts
  have fuel := Nat.le_max_left (max initFuel ramFuel) heapFuel
  have init := pmmInit_mono init ((Nat.le_max_left initFuel ramFuel).trans fuel)
  have ram := loop_mono ram ((Nat.le_max_right initFuel ramFuel).trans fuel)
  have heap := loop_mono heap (Nat.le_max_right (max initFuel ramFuel) heapFuel)
  have hasMap := boot.hasMap
  have result : ∃ k, kernelMainMemory (max (max initFuel ramFuel) heapFuel) m mbd mbdStart kernelEnd =
      some (.ok k) := by
    simp only [kernelMainMemory, init, hasMap, if_true, ram, initHeap, heap]
    cases found <;> exact ⟨_, rfl⟩
  exact result.imp fun k returns => ⟨_, returns⟩

/-- What it leaves behind. -/
theorem booted (boot : KernelBoot m mbd kernelEnd entries) {k : Kernel}
    (boots : KernelBoots m mbd mbdStart kernelEnd k) :
    KernelBooted m mbd mbdStart kernelEnd entries k := by
  obtain ⟨fuel, ok⟩ := boots
  simp only [kernelMainMemory, boot.hasMap, if_true] at ok
  split at ok
  · cases ok
  · cases ok
  · next pmm init =>
    have accepts : PmmAccepts { mem := m } mbd mbdStart kernelEnd pmm := ⟨fuel, init⟩
    obtain ⟨_, initialized⟩ := accepts.initialized boot.hasMap boot.map boot.apart
    obtain ⟨ram, found, heap, limit⟩ := boot.finish initialized
    split at ok
    · cases ok
    · next total walked =>
      obtain rfl := Returns.unique ⟨fuel, walked⟩ ram
      rw [boot.heapStart_mod, initHeap, if_pos boot.hasMap] at ok
      simp only at ok
      split at ok
      · cases ok
      · next searched =>
        obtain rfl := Returns.unique ⟨fuel, searched⟩ heap
        cases ok
        exact ⟨accepts, initialized, rfl, limit, rfl, rfl, rfl⟩
      · next searched =>
        obtain rfl := Returns.unique ⟨fuel, searched⟩ heap
        cases ok
        exact ⟨accepts, initialized, rfl, limit, rfl, rfl, rfl⟩

end KernelBoot

end RaryOS.Model
