import RaryOS.Proofs.PmmAlloc

/-! # The two walks and the reservations of `pmm_init`

On a well-formed map the first walk returns the highest end of an available region, or stops at the
first one that wraps. The bitmap built for it covers every frame below that end; the second walk then
frees exactly the whole pages of the available regions, and the reservations take pages back.
-/

namespace RaryOS.Model

open RaryOS.Core

/-- An available region must not wrap around the address space. -/
def MemoryMap.NoWrap (e : MemoryMap) : Prop := e.type = 1 → e.addr ≤ (e.addr + e.len) % 2 ^ 64

instance (e : MemoryMap) : Decidable e.NoWrap := inferInstanceAs (Decidable (_ → _))

/-- The highest end of an available region, but at least `top`. -/
def availableTop (top : ℕ) : List MemoryMap → ℕ
  | [] => top
  | e :: rest =>
    availableTop (if e.type = 1 ∧ top < (e.addr + e.len) % 2 ^ 64 then (e.addr + e.len) % 2 ^ 64
      else top) rest

theorem le_availableTop (top : ℕ) (entries : List MemoryMap) : top ≤ availableTop top entries := by
  induction entries generalizing top with
  | nil => exact le_rfl
  | cons e rest ih =>
    rw [availableTop]
    split
    · next higher => exact higher.2.le.trans (ih _)
    · exact ih top

/-- Every available region ends at or below the top. -/
theorem end_le_availableTop {top : ℕ} {entries : List MemoryMap} {e : MemoryMap} (member : e ∈ entries)
    (available : e.type = 1) : (e.addr + e.len) % 2 ^ 64 ≤ availableTop top entries := by
  induction entries generalizing top with
  | nil => cases member
  | cons head rest ih =>
    rw [availableTop]
    rcases List.mem_cons.mp member with rfl | member
    · refine le_trans ?_ (le_availableTop _ rest)
      split <;> omega
    · exact ih member

/-- The top is where it began or the end of an available region. -/
theorem availableTop_attained (top : ℕ) (entries : List MemoryMap) :
    availableTop top entries = top ∨
      ∃ e ∈ entries, e.type = 1 ∧ availableTop top entries = (e.addr + e.len) % 2 ^ 64 := by
  induction entries generalizing top with
  | nil => exact Or.inl rfl
  | cons e rest ih =>
    rw [availableTop]
    split
    · next higher =>
      rcases ih ((e.addr + e.len) % 2 ^ 64) with here | ⟨other, member, available, same⟩
      · exact Or.inr ⟨e, List.mem_cons_self, higher.1, here⟩
      · exact Or.inr ⟨other, List.mem_cons_of_mem e member, available, same⟩
    · rcases ih top with same | ⟨other, member, available, same⟩
      · exact Or.inl same
      · exact Or.inr ⟨other, List.mem_cons_of_mem e member, available, same⟩

/-- The first walk succeeds exactly when no available region wraps, and then finds the top. -/
theorem pmmInitScan_returns_iff {m : Memory} {stop mmap top result : ℕ} {entries : List MemoryMap}
    (map : MapEntries m stop mmap entries) (small : stop < 2 ^ 32) :
    Returns (pmmInitScan m stop) (mmap, top) (.ok result) ↔
      (∀ e ∈ entries, e.NoWrap) ∧ availableTop top entries = result := by
  induction map generalizing top with
  | nil =>
    have done : pmmInitScan m stop (stop, top) = .inr (.ok top) := by
      simp only [pmmInitScan, mmapInside_end small, Bool.false_eq_true, if_false]
    rw [Returns.stop_iff done]
    simp [availableTop]
  | @cons mmap rest large inside _ ih =>
    have here := mmapInside_of_lt (show mmap < stop by omega) small
    have accepted : ¬((MemoryMap.read m mmap).size < sizeofMemoryMap - 4 ∨
        stop < (mmap + (MemoryMap.read m mmap).size + 4) % 2 ^ 32) := by
      rw [Nat.mod_eq_of_lt (by omega), sizeofMemoryMap]
      omega
    simp only [List.forall_mem_cons, availableTop]
    generalize entry : MemoryMap.read m mmap = e at *
    have next := MemoryMap.next_eq (m := m) (entry ▸ inside) small
    rw [entry] at next
    by_cases available : e.type = 1
    · by_cases wraps : (e.addr + e.len) % 2 ^ 64 < e.addr
      · have panics : pmmInitScan m stop (mmap, top) = .inr (.error .regionOverflow) := by
          simp only [pmmInitScan, here, entry, if_neg accepted, if_pos available, if_pos wraps, if_true]
        rw [Returns.stop_iff panics]
        simp only [reduceCtorEq, false_iff, not_and]
        intro noWrap
        exact absurd (noWrap.1 available) (by omega)
      · have step : pmmInitScan m stop (mmap, top) = .inl (mmap + e.size + 4,
            if top < (e.addr + e.len) % 2 ^ 64 then (e.addr + e.len) % 2 ^ 64 else top) := by
          simp only [pmmInitScan, here, entry, if_neg accepted, if_pos available, if_neg wraps, if_true,
            next]
        rw [Returns.step_iff step, ih]
        simp only [available, true_and, MemoryMap.NoWrap, forall_const, Nat.le_of_not_lt wraps]
    · have step : pmmInitScan m stop (mmap, top) = .inl (mmap + e.size + 4, top) := by
        simp only [pmmInitScan, here, entry, if_neg accepted, if_neg available, if_true, next]
      rw [Returns.step_iff step, ih]
      simp only [available, false_and, MemoryMap.NoWrap, false_imp_iff, true_and, if_false]

/-- The bitmap has a whole number of words and covers every frame. -/
theorem words_le_bitmapSize (maxMemoryAddr : ℕ) :
    8 * ((pmmMaxBlocksOf maxMemoryAddr + 63) / 64) ≤ pmmBitmapSizeOf maxMemoryAddr := by
  simp only [pmmBitmapSizeOf, alignDown, pageSize]
  omega

/-- After placing the bitmap every frame in it is used. -/
theorem pmmInitPlace_testBit (s : PmmState) (maxMemoryAddr kernelEndPhys : ℕ) {j : ℕ}
    (inside : j / 8 < pmmBitmapSizeOf maxMemoryAddr) :
    pmmTestBit (pmmInitPlace s maxMemoryAddr kernelEndPhys) j = true := by
  simp only [pmmTestBit, Bitmap.test, pmmInitPlace]
  rw [Memory.fill_apply_of_inside _ _ (by omega) (by omega),
    show (0xFF : BitVec 8) = BitVec.allOnes 8 from rfl, BitVec.getLsbD_allOnes]
  exact decide_eq_true (Nat.mod_lt _ (by decide))

/-- Bits at and past `pmm_max_blocks` are left alone. -/
def KeepsTail (s t : PmmState) : Prop :=
  ∃ f, PmmUpdate s t f ∧ ∀ j b, s.pmmMaxBlocks ≤ j → f j b = b

theorem KeepsTail.refl (s : PmmState) : KeepsTail s s := ⟨_, .refl s, fun _ _ _ => rfl⟩

theorem KeepsTail.trans {s t u : PmmState} (first : KeepsTail s t) (second : KeepsTail t u) :
    KeepsTail s u := by
  obtain ⟨f, update, keep⟩ := first
  obtain ⟨g, update', keep'⟩ := second
  refine ⟨_, update.trans update', fun j b high => ?_⟩
  rw [keep j b high, keep' j b (update.maxBlocks ▸ high)]

theorem pmmInitRegion_keepsTail (s : PmmState) (base size : ℕ) :
    KeepsTail s (pmmInitRegion s base size) :=
  ⟨_, pmmInitRegion_update s base size, fun j b high => if_neg (by omega)⟩

/-- Whatever the memory holds, the second walk writes no bit at or past `pmm_max_blocks`. -/
theorem pmmInitRelease_keepsTail {mmapEnd mmap : ℕ} {s t : PmmState}
    (returns : Returns (pmmInitRelease mmapEnd) (s, mmap) t) : KeepsTail s t := by
  apply returns.invariant (fun state => KeepsTail s state.1) (KeepsTail s) (.refl s)
  · rintro ⟨u, mmap⟩ next keeps step
    simp only [pmmInitRelease] at step
    split_ifs at step with inside available
    · obtain rfl := Sum.inl.inj step
      exact keeps.trans (pmmInitRegion_keepsTail u _ _)
    · obtain rfl := Sum.inl.inj step
      exact keeps
  · rintro ⟨u, mmap⟩ value keeps stop
    simp only [pmmInitRelease] at stop
    split_ifs at stop
    obtain rfl := Sum.inr.inj stop
    exact keeps

/-- A page lies inside an available region of the list after rounding. -/
def Released (entries : List MemoryMap) (j : ℕ) : Prop :=
  ∃ e ∈ entries, e.type = 1 ∧ RegionFrees e.addr e.len j

instance (entries : List MemoryMap) (j : ℕ) : Decidable (Released entries j) :=
  inferInstanceAs (Decidable (∃ e ∈ entries, _))

/-- On a well-formed map apart from the bitmap the second walk stops, and it clears exactly the bits
of the released pages. -/
theorem pmmInitRelease_returns {stop mmap : ℕ} {s : PmmState} {entries : List MemoryMap}
    (map : MapEntries s.mem stop mmap entries) (small : stop < 2 ^ 32)
    (apart : ∀ query, mmap ≤ query → query < stop → query < s.pmmBitmap ∨ s.bitsEnd ≤ query) :
    ∃ t, Returns (pmmInitRelease stop) (s, mmap) t ∧
      PmmUpdate s t (fun j b => if Released entries j ∧ j < s.pmmMaxBlocks then false else b) := by
  induction entries generalizing s mmap with
  | nil =>
    cases map
    have done : pmmInitRelease stop (s, stop) = .inr s := by
      simp only [pmmInitRelease, mmapInside_end small, Bool.false_eq_true, if_false]
    refine ⟨s, .of_stop done, (PmmUpdate.refl s).congr fun j b => ?_⟩
    simp [Released]
  | cons e rest ih =>
    obtain ⟨t, frees, step⟩ : ∃ t, PmmUpdate s t (fun j b =>
        if (e.type = 1 ∧ RegionFrees e.addr e.len j) ∧ j < s.pmmMaxBlocks then false else b) ∧
        pmmInitRelease stop (s, mmap) = .inl (t, MemoryMap.next t.mem mmap) := by
      have here : mmapInside mmap stop = true := by
        cases map with
        | cons large inside _ => exact mmapInside_of_lt (by omega) small
      have entry : MemoryMap.read s.mem mmap = e := by cases map; rfl
      by_cases available : e.type = 1
      · refine ⟨pmmInitRegion s e.addr e.len, ?_, ?_⟩
        · simpa only [available, true_and] using pmmInitRegion_update s e.addr e.len
        · simp only [pmmInitRelease, here, entry, available, if_true]
      · refine ⟨s, ?_, ?_⟩
        · simpa only [available, false_and, if_false] using PmmUpdate.refl s
        · simp only [pmmInitRelease, here, entry, available, if_true, if_false]
    have kept : MapEntries t.mem stop mmap (e :: rest) :=
      map.congr fun query lower upper => frees.outside query (apart query lower upper)
    obtain ⟨inside, tail⟩ : mmap + e.size + 4 ≤ stop ∧
        MapEntries t.mem stop (MemoryMap.next t.mem mmap) rest := by
      cases kept with
      | cons large inside tail => exact ⟨inside, by rwa [MemoryMap.next_eq inside small]⟩
    have next : MemoryMap.next t.mem mmap = mmap + e.size + 4 := by
      cases kept with
      | cons large inside _ => exact MemoryMap.next_eq inside small
    obtain ⟨u, returns, update⟩ := ih tail fun query lower upper => by
      rw [frees.bitmap, frees.bitsEnd]
      exact apart query (by omega) upper
    refine ⟨u, .of_step step returns, (frees.trans update).congr fun j b => ?_⟩
    simp only [Released, List.exists_mem_cons_iff, frees.maxBlocks]
    by_cases head : (e.type = 1 ∧ RegionFrees e.addr e.len j) ∧ j < s.pmmMaxBlocks
    · rw [if_pos head, ite_self]
      exact (if_pos ⟨Or.inl head.1, head.2⟩).symm
    · rw [if_neg head]
      refine if_congr ?_ rfl rfl
      constructor
      · exact fun ⟨member, bound⟩ => ⟨Or.inr member, bound⟩
      · rintro ⟨found | found, bound⟩
        · exact absurd ⟨found, bound⟩ head
        · exact ⟨found, bound⟩

/-- The four reservations of `pmm_init`, with the sizes it computes. -/
def Reserved (s : PmmState) (mbd : MultibootInfo) (mbdStart j : ℕ) : Prop :=
  RegionReserves 0 (1024 * 1024) j ∨
    RegionReserves 0x100000
      (((s.pmmBitmap + s.pmmBitmapSize) % 2 ^ 64 + (2 ^ 64 - 0x100000)) % 2 ^ 64) j ∨
    RegionReserves mbdStart
      (((mbdStart + sizeofMultibootInfo) % 2 ^ 64 + (2 ^ 64 - mbdStart)) % 2 ^ 64) j ∨
    RegionReserves mbd.mmapAddr ((mbd.mmapEnd + (2 ^ 64 - mbd.mmapAddr)) % 2 ^ 64) j

instance (s : PmmState) (mbd : MultibootInfo) (mbdStart j : ℕ) : Decidable (Reserved s mbd mbdStart j) :=
  inferInstanceAs (Decidable (_ ∨ _))

/-- Setting a bit for one reason after the other, in any order. -/
theorem ite_true_four {p q r t : Prop} [Decidable p] [Decidable q] [Decidable r] [Decidable t] (b : Bool) :
    (if t then true else if r then true else if q then true else if p then true else b) =
      if p ∨ q ∨ r ∨ t then true else b := by
  simp only [Bool.if_true_left, Bool.decide_or]
  ac_rfl

theorem pmmInitReserve_update (s : PmmState) (mbd : MultibootInfo) (mbdStart : ℕ) :
    PmmUpdate s (pmmInitReserve s mbd mbdStart)
      (fun j b => if Reserved s mbd mbdStart j ∧ j < s.pmmMaxBlocks then true else b) := by
  have low := pmmDeinitRegion_update s 0 (1024 * 1024)
  have kernel := pmmDeinitRegion_update (pmmDeinitRegion s 0 (1024 * 1024)) 0x100000
    (((s.pmmBitmap + s.pmmBitmapSize) % 2 ^ 64 + (2 ^ 64 - 0x100000)) % 2 ^ 64)
  have first := low.trans kernel
  have info := first.trans (pmmDeinitRegion_update _ mbdStart
    (((mbdStart + sizeofMultibootInfo) % 2 ^ 64 + (2 ^ 64 - mbdStart)) % 2 ^ 64))
  have map := info.trans (pmmDeinitRegion_update _ mbd.mmapAddr
    ((mbd.mmapEnd + (2 ^ 64 - mbd.mmapAddr)) % 2 ^ 64))
  apply map.congr
  intro j b
  rw [low.maxBlocks, first.maxBlocks, info.maxBlocks]
  by_cases bound : j < s.pmmMaxBlocks
  · simp only [bound, and_true]
    exact ite_true_four b
  · simp only [bound, and_false, if_false]

/-- The fix-up of the last word sets bits at and past `pmm_max_blocks` only. -/
theorem pmmInitTail_update (s : PmmState) :
    ∃ f : ℕ → Bool, PmmUpdate s (pmmInitTail s) (fun j b => f j || b) ∧ ∀ j < s.pmmMaxBlocks, f j = false := by
  simp only [pmmInitTail]
  split
  · next partialWord =>
    refine ⟨fun j => decide (j / 64 = (s.pmmMaxBlocks - 1) / 64) &&
      Nat.testBit (2 ^ 64 - 2 ^ ((s.pmmMaxBlocks - 1) % 64 + 1)) (j % 64),
      ⟨rfl, rfl, rfl, fun j => Bitmap.test_orWord _ _ _ _ j, fun query away => ?_⟩, fun j bound => ?_⟩
    · apply Bitmap.orWord_apply_of_outside s.mem s.pmmBitmap _ _
      simp only [PmmState.bitsEnd, PmmState.words] at away
      omega
    · rw [Bool.and_eq_false_iff]
      by_cases word : j / 64 = (s.pmmMaxBlocks - 1) / 64
      · right
        -- the mask is a multiple of a power of two above the bit
        obtain ⟨k, mask⟩ : 2 ^ ((s.pmmMaxBlocks - 1) % 64 + 1) ∣
            2 ^ 64 - 2 ^ ((s.pmmMaxBlocks - 1) % 64 + 1) :=
          Nat.dvd_sub (Nat.pow_dvd_pow 2 (by omega)) (dvd_refl _)
        rw [mask, Nat.mul_comm, Nat.testBit_mul_two_pow, decide_eq_false (by omega), Bool.false_and]
      · left
        exact decide_eq_false word
  · exact ⟨fun _ => false, ⟨rfl, rfl, rfl, fun j => (Bool.false_or _).symm, fun _ _ => rfl⟩,
      fun _ _ => rfl⟩

theorem pmmInitTail_hint (s : PmmState) : (pmmInitTail s).pmmHintWord = 0 := rfl

/-- What a successful `pmm_init` went through. -/
theorem pmmInit_ok {fuel : ℕ} {s t : PmmState} {mbd : MultibootInfo} {mbdStart kernelEndPhys : ℕ}
    (ok : pmmInit fuel s mbd mbdStart kernelEndPhys = some (.ok t)) (hasMap : mbd.hasMemMap = true) :
    ∃ top placed, Returns (pmmInitScan s.mem mbd.mmapEnd) (mbd.mmapAddr, 0) (.ok top) ∧
      Returns (pmmInitRelease mbd.mmapEnd) (pmmInitPlace s top kernelEndPhys, mbd.mmapAddr) placed ∧
      t = pmmInitTail (pmmInitReserve placed mbd mbdStart) := by
  simp only [pmmInit, hasMap, if_true] at ok
  split at ok
  · contradiction
  · simp only [Option.some.injEq, reduceCtorEq] at ok
  · next top scanned =>
    split at ok
    · contradiction
    · next placed released =>
      exact ⟨top, placed, ⟨fuel, scanned⟩, ⟨fuel, released⟩, (Except.ok.inj (Option.some.inj ok)).symm⟩

/-- Conversely, two walks that return make `pmm_init` return. -/
theorem pmmInit_of_returns {s placed : PmmState} {mbd : MultibootInfo} {mbdStart kernelEndPhys top : ℕ}
    (hasMap : mbd.hasMemMap = true)
    (scan : Returns (pmmInitScan s.mem mbd.mmapEnd) (mbd.mmapAddr, 0) (.ok top))
    (release : Returns (pmmInitRelease mbd.mmapEnd) (pmmInitPlace s top kernelEndPhys, mbd.mmapAddr)
      placed) :
    PmmAccepts s mbd mbdStart kernelEndPhys (pmmInitTail (pmmInitReserve placed mbd mbdStart)) := by
  obtain ⟨n, scan⟩ := scan
  obtain ⟨k, release⟩ := release
  refine ⟨max n k, ?_⟩
  simp only [pmmInit, hasMap, if_true, loop_mono scan (Nat.le_max_left n k),
    loop_mono release (Nat.le_max_right n k)]

/-- A successful `pmm_init` leaves the allocator well formed, and page 0 reserved. -/
theorem PmmAccepts.wf {m : Memory} {t : PmmState} {mbd : MultibootInfo} {mbdStart kernelEndPhys : ℕ}
    (accepts : PmmAccepts { mem := m } mbd mbdStart kernelEndPhys t) :
    PmmWf t ∧ (0 < t.pmmMaxBlocks → pmmTestBit t 0 = true) := by
  obtain ⟨fuel, ok⟩ := accepts
  by_cases hasMap : mbd.hasMemMap = true
  · obtain ⟨top, placed, scan, release, rfl⟩ := pmmInit_ok ok hasMap
    obtain ⟨f, released, keeps⟩ := pmmInitRelease_keepsTail release
    have reserve := pmmInitReserve_update placed mbd mbdStart
    obtain ⟨g, tail, keep⟩ := pmmInitTail_update (pmmInitReserve placed mbd mbdStart)
    have all := (released.trans reserve).trans tail
    have topBound : top < 2 ^ 64 := by
      refine scan.invariant (fun state => state.2 < 2 ^ 64)
        (fun result => ∀ top, result = .ok top → top < 2 ^ 64) (Nat.two_pow_pos 64) ?_ ?_ top rfl
      · rintro ⟨mmap, high⟩ next small step
        simp only [pmmInitScan] at step
        split_ifs at step <;> obtain rfl := Sum.inl.inj step <;>
          first | exact Nat.mod_lt _ (by decide) | exact small
      · rintro ⟨mmap, high⟩ value small stop top same
        subst same
        simp only [pmmInitScan] at stop
        split_ifs at stop <;> simp only [Sum.inr.injEq, Except.ok.injEq, reduceCtorEq] at stop
        exact stop ▸ small
    refine ⟨⟨fun j high inside => ?_, ?_, ?_⟩, fun positive => ?_⟩
    · rw [all.maxBlocks] at high
      rw [all.words] at inside
      have marked := pmmInitPlace_testBit { mem := m } top kernelEndPhys (j := j) (by
        have := words_le_bitmapSize top
        have : 64 * ((pmmMaxBlocksOf top + 63) / 64) = 64 * (pmmInitPlace { mem := m } top kernelEndPhys).words := rfl
        omega)
      rw [all.bits, keeps j _ high, if_neg (by rw [released.maxBlocks]; omega), marked, Bool.or_true]
    · rw [pmmInitTail_hint]
      exact Nat.zero_le _
    · rw [all.maxBlocks]
      change alignDown top / pageSize ≤ 2 ^ 52
      simp only [alignDown, pageSize]
      omega
    · rw [all.maxBlocks] at positive
      rw [all.bits, if_pos, Bool.or_true]
      refine ⟨Or.inl ⟨?_, ?_⟩, released.maxBlocks ▸ positive⟩ <;> decide
  · simp only [pmmInit, hasMap, if_false, Option.some.injEq, Except.ok.injEq, Bool.false_eq_true] at ok
    subst ok
    refine ⟨⟨fun j high inside => ?_, Nat.zero_le _, Nat.zero_le _⟩, fun positive => ?_⟩
    · exact absurd inside (by simp [PmmState.words])
    · exact absurd positive (lt_irrefl 0)

/-- The search starts at the first word. -/
theorem PmmAccepts.hint {m : Memory} {t : PmmState} {mbd : MultibootInfo} {mbdStart kernelEndPhys : ℕ}
    (accepts : PmmAccepts { mem := m } mbd mbdStart kernelEndPhys t) : t.pmmHintWord = 0 := by
  obtain ⟨fuel, ok⟩ := accepts
  by_cases hasMap : mbd.hasMemMap = true
  · obtain ⟨top, placed, _, _, rfl⟩ := pmmInit_ok ok hasMap
    exact pmmInitTail_hint _
  · simp only [pmmInit, hasMap, if_false, Option.some.injEq, Except.ok.injEq, Bool.false_eq_true] at ok
    rw [← ok]

/-- What `pmm_init` leaves behind for a map it walked: the geometry of the bitmap, which frames are
free, and the memory it did not touch. -/
structure PmmInitialized (m : Memory) (mbd : MultibootInfo) (mbdStart kernelEndPhys : ℕ)
    (entries : List MemoryMap) (t : PmmState) : Prop where
  bitmap : t.pmmBitmap = kernelEndPhys
  maxBlocks : t.pmmMaxBlocks = pmmMaxBlocksOf (availableTop 0 entries)
  bitmapSize : t.pmmBitmapSize = pmmBitmapSizeOf (availableTop 0 entries)
  hint : t.pmmHintWord = 0
  free_iff : ∀ j < t.pmmMaxBlocks,
    pmmTestBit t j = false ↔ Released entries j ∧ ¬Reserved t mbd mbdStart j
  tail : ∀ j, t.pmmMaxBlocks ≤ j → j / 8 < t.pmmBitmapSize → pmmTestBit t j = true
  outside : ∀ query, query < kernelEndPhys ∨ kernelEndPhys + t.pmmBitmapSize ≤ query →
    t.mem query = m query

private theorem initialized_of_released {m : Memory} {placed : PmmState} {mbd : MultibootInfo}
    {mbdStart kernelEndPhys : ℕ} {entries : List MemoryMap}
    (released : PmmUpdate (pmmInitPlace { mem := m } (availableTop 0 entries) kernelEndPhys) placed
      (fun j b => if Released entries j ∧ j < pmmMaxBlocksOf (availableTop 0 entries) then false
        else b)) :
    PmmInitialized m mbd mbdStart kernelEndPhys entries
      (pmmInitTail (pmmInitReserve placed mbd mbdStart)) := by
  have reserve := pmmInitReserve_update placed mbd mbdStart
  obtain ⟨g, tail, keep⟩ := pmmInitTail_update (pmmInitReserve placed mbd mbdStart)
  have all := (released.trans reserve).trans tail
  have blocks : placed.pmmMaxBlocks = pmmMaxBlocksOf (availableTop 0 entries) := released.maxBlocks
  have sameReserved (j : ℕ) : Reserved (pmmInitTail (pmmInitReserve placed mbd mbdStart)) mbd mbdStart j ↔
      Reserved placed mbd mbdStart j := by
    simp only [Reserved, tail.bitmap, tail.bitmapSize, reserve.bitmap, reserve.bitmapSize]
  have size : (pmmInitTail (pmmInitReserve placed mbd mbdStart)).pmmBitmapSize =
    pmmBitmapSizeOf (availableTop 0 entries) := all.bitmapSize
  have place := words_le_bitmapSize (availableTop 0 entries)
  refine ⟨all.bitmap, all.maxBlocks, all.bitmapSize, rfl, fun j bound => ?_, fun j high inside => ?_,
    fun query away => ?_⟩
  · rw [tail.maxBlocks, reserve.maxBlocks] at bound
    rw [all.bits, keep j (reserve.maxBlocks ▸ bound), Bool.false_or, sameReserved]
    have marked := pmmInitPlace_testBit { mem := m } (availableTop 0 entries) kernelEndPhys (j := j)
      (by omega)
    simp only [bound, and_true, blocks ▸ bound, marked]
    split_ifs with reserved free <;> simp_all
  · rw [tail.maxBlocks, reserve.maxBlocks] at high
    rw [size] at inside
    have marked := pmmInitPlace_testBit { mem := m } (availableTop 0 entries) kernelEndPhys inside
    rw [all.bits, if_neg (by omega), if_neg (by omega), marked, Bool.or_true]
  · rw [size] at away
    rw [all.outside query]
    · exact Memory.fill_apply_of_outside m _ away
    · change query < kernelEndPhys ∨ kernelEndPhys + 8 * ((pmmMaxBlocksOf (availableTop 0 entries) + 63) / 64) ≤ query
      omega

section WellFormedMap

variable {m : Memory} {mbd : MultibootInfo} {mbdStart kernelEndPhys : ℕ} {entries : List MemoryMap}
  (hasMap : mbd.hasMemMap = true) (map : MapEntries m mbd.mmapEnd mbd.mmapAddr entries)
  (apart : ∀ query, mbd.mmapAddr ≤ query → query < mbd.mmapEnd →
    query < kernelEndPhys ∨ kernelEndPhys + pmmBitmapSizeOf (availableTop 0 entries) ≤ query)

include map apart

private theorem release_of_map :
    ∃ t, Returns (pmmInitRelease mbd.mmapEnd)
        (pmmInitPlace { mem := m } (availableTop 0 entries) kernelEndPhys, mbd.mmapAddr) t ∧
      PmmUpdate (pmmInitPlace { mem := m } (availableTop 0 entries) kernelEndPhys) t
        (fun j b => if Released entries j ∧ j < pmmMaxBlocksOf (availableTop 0 entries) then false
          else b) := by
  have place := words_le_bitmapSize (availableTop 0 entries)
  refine pmmInitRelease_returns (map.congr fun query lower upper => ?_) (Nat.mod_lt _ (by decide))
    fun query lower upper => ?_
  · exact Memory.fill_apply_of_outside m _ (apart query lower upper)
  · have := apart query lower upper
    change query < kernelEndPhys ∨
      kernelEndPhys + 8 * ((pmmMaxBlocksOf (availableTop 0 entries) + 63) / 64) ≤ query
    omega

include hasMap

/-- On a well-formed map apart from the bitmap `pmm_init` succeeds if no available region wraps. -/
theorem pmmInit_accepts (noWrap : ∀ e ∈ entries, e.NoWrap) :
    ∃ t, PmmAccepts { mem := m } mbd mbdStart kernelEndPhys t := by
  obtain ⟨placed, release, _⟩ := release_of_map map apart
  have scan : Returns (pmmInitScan m mbd.mmapEnd) (mbd.mmapAddr, 0) (.ok (availableTop 0 entries)) :=
    (pmmInitScan_returns_iff map (Nat.mod_lt _ (by decide))).mpr ⟨noWrap, rfl⟩
  exact ⟨_, pmmInit_of_returns hasMap scan release⟩

/-- And whenever it succeeds, no available region wraps and the result is the one described. -/
theorem PmmAccepts.initialized {t : PmmState}
    (accepts : PmmAccepts { mem := m } mbd mbdStart kernelEndPhys t) :
    (∀ e ∈ entries, e.NoWrap) ∧ PmmInitialized m mbd mbdStart kernelEndPhys entries t := by
  obtain ⟨fuel, ok⟩ := accepts
  obtain ⟨top, placed, scan, release, rfl⟩ := pmmInit_ok ok hasMap
  obtain ⟨noWrap, rfl⟩ := (pmmInitScan_returns_iff map (Nat.mod_lt _ (by decide))).mp scan
  obtain ⟨u, returns, update⟩ := release_of_map map apart
  obtain rfl := release.unique returns
  exact ⟨noWrap, initialized_of_released update⟩

end WellFormedMap

end RaryOS.Model
