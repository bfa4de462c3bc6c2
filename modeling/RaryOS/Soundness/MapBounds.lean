import RaryOS.Proofs.MapWalks
import RaryOS.Soundness.PmmInitFree

/-! # How far the walks of `pmm_init` go

The check of an entry's size and the loop test are in 32 bits, the pointer advances in 64. A size field for
which the 32-bit sum wraps around to the buffer or below it slips through, and the walk goes on 4 GiB above.
Any other map that is not refused is tiled by its entries. The second walk trusts the first, but between the
two the bitmap is written, which may lie on the map.
-/

namespace RaryOS.Soundness

open RaryOS.Core RaryOS.Model

variable {m : Memory} {mbd : MultibootInfo} {mbdStart kernelEndPhys stop mmap top : ℕ} {entries : List MemoryMap}

/-- The first entry that fails a check: it is too small, it ends behind the buffer by the 32-bit sum, or it is
an available region that wraps. -/
def FailsCheck (m : Memory) (stop mmap : ℕ) : Prop :=
  (MemoryMap.read m mmap).size < sizeofMemoryMap - 4 ∨
    stop < (mmap + (MemoryMap.read m mmap).size + 4) % 2 ^ 32 ∨ ¬(MemoryMap.read m mmap).NoWrap

instance (m : Memory) (stop mmap : ℕ) : Decidable (FailsCheck m stop mmap) := inferInstanceAs (Decidable (_ ∨ _))

/-- From a pointer on, the size fields lead to an entry that fails a check. -/
inductive Refuses (m : Memory) (stop : ℕ) : ℕ → Prop
  | here {mmap : ℕ} : mmapInside mmap stop = true → FailsCheck m stop mmap → Refuses m stop mmap
  | later {mmap : ℕ} : mmapInside mmap stop = true → Refuses m stop (MemoryMap.next m mmap) → Refuses m stop mmap

/-- A loop ends after at most `mmap_length / 24` iterations that read only bytes of the buffer. -/
def WalkBounded {σ α : Type*} (mbd : MultibootInfo) (body : σ → σ ⊕ α) (mem : σ → Memory) (place : σ → ℕ)
    (s : σ) (result : α) : Prop :=
  ∃ trace, Walk body s trace result ∧ trace.length ≤ mbd.mmapLength / sizeofMemoryMap ∧
    ∀ u ∈ trace, ∀ r ∈ MemoryMap.reads (mem u) (place u),
      mbd.mmapAddr ≤ r.1 ∧ r.1 + r.2 ≤ mbd.mmapAddr + mbd.mmapLength

/-- `pmm_init` stops in a panic. -/
def Panics (m : Memory) (mbd : MultibootInfo) (mbdStart kernelEndPhys : ℕ) : Prop :=
  ∃ fuel panic, pmmInit fuel { mem := m } mbd mbdStart kernelEndPhys = some (.error panic)

/-- `pmm_init` stops in a panic, or both of its walks are bounded. -/
def WalksBounded (m : Memory) (mbd : MultibootInfo) (mbdStart kernelEndPhys : ℕ) : Prop :=
  Panics m mbd mbdStart kernelEndPhys ∨ ∃ top placed,
    WalkBounded mbd (pmmInitScan m mbd.mmapEnd) (fun _ => m) Prod.fst (mbd.mmapAddr, 0) (.ok top) ∧
      WalkBounded mbd (pmmInitRelease mbd.mmapEnd) (fun s => s.1.mem) Prod.snd
        (pmmInitPlace { mem := m } top kernelEndPhys, mbd.mmapAddr) placed

/-- No byte of a size field lies in the bitmap. -/
def SizesApart (kernelEndPhys mmap : ℕ) (entries : List MemoryMap) : Prop :=
  ∀ p ∈ mapPlaces mmap entries, ∀ query, p ≤ query → query < p + 4 →
    query < kernelEndPhys ∨ kernelEndPhys + pmmBitmapSizeOf (availableTop 0 entries) ≤ query

/-! ## The panics -/

/-- An iteration of the first walk that fails no check. -/
theorem pmmInitScan_next (top : ℕ) (inside : mmapInside mmap stop = true) (passes : ¬FailsCheck m stop mmap) :
    ∃ higher, pmmInitScan m stop (mmap, top) = .inl (MemoryMap.next m mmap, higher) := by
  rw [FailsCheck, ← or_assoc, not_or, not_not] at passes
  obtain ⟨accepted, noWrap⟩ := passes
  by_cases available : (MemoryMap.read m mmap).type = 1
  · have wraps := Nat.not_lt.mpr (noWrap available)
    simp only [pmmInitScan, inside, if_neg accepted, if_pos available, if_neg wraps, if_true]
    exact ⟨_, rfl⟩
  · simp only [pmmInitScan, inside, if_neg accepted, if_neg available, if_true]
    exact ⟨_, rfl⟩

/-- An iteration that fails one. -/
theorem pmmInitScan_fails (top : ℕ) (inside : mmapInside mmap stop = true) (fails : FailsCheck m stop mmap) :
    ∃ panic, pmmInitScan m stop (mmap, top) = .inr (.error panic) := by
  rw [FailsCheck, ← or_assoc] at fails
  by_cases accepted : (MemoryMap.read m mmap).size < sizeofMemoryMap - 4 ∨
      stop < (mmap + (MemoryMap.read m mmap).size + 4) % 2 ^ 32
  · exact ⟨.mmapEntryCorrupted, by simp only [pmmInitScan, inside, if_pos accepted, if_true]⟩
  · have wraps := fails.resolve_left accepted
    rw [MemoryMap.NoWrap, Classical.not_imp, Nat.not_le] at wraps
    exact ⟨.regionOverflow, by
      simp only [pmmInitScan, inside, if_neg accepted, if_pos wraps.1, if_pos wraps.2, if_true]⟩

/-- What an iteration of the first walk does: it stops at the end, panics, or goes on to the next entry. -/
theorem pmmInitScan_cases (m : Memory) (stop mmap top : ℕ) :
    (mmapInside mmap stop = false ∧ pmmInitScan m stop (mmap, top) = .inr (.ok top)) ∨
      (mmapInside mmap stop = true ∧ FailsCheck m stop mmap ∧
        ∃ panic, pmmInitScan m stop (mmap, top) = .inr (.error panic)) ∨
      mmapInside mmap stop = true ∧ ¬FailsCheck m stop mmap ∧
        ∃ higher, pmmInitScan m stop (mmap, top) = .inl (MemoryMap.next m mmap, higher) := by
  cases inside : mmapInside mmap stop with
  | false =>
    refine Or.inl ⟨rfl, ?_⟩
    simp only [pmmInitScan, inside, Bool.false_eq_true, if_false]
  | true =>
    right
    by_cases fails : FailsCheck m stop mmap
    · exact Or.inl ⟨rfl, fails, pmmInitScan_fails top inside fails⟩
    · exact Or.inr ⟨rfl, fails, pmmInitScan_next top inside fails⟩

/-- The first walk panics exactly when it comes to an entry that fails a check. -/
theorem refuses_iff (m : Memory) (stop mmap top : ℕ) :
    Refuses m stop mmap ↔ ∃ panic, Returns (pmmInitScan m stop) (mmap, top) (.error panic) := by
  constructor
  · intro refuses
    induction refuses generalizing top with
    | here inside fails =>
      obtain ⟨panic, done⟩ := pmmInitScan_fails top inside fails
      exact ⟨panic, .of_stop done⟩
    | @later mmap inside _ ih =>
      rcases pmmInitScan_cases m stop mmap top with ⟨outside, _⟩ | ⟨_, _, panic, done⟩ | ⟨_, _, higher, goes⟩
      · rw [inside] at outside
        cases outside
      · exact ⟨panic, .of_stop done⟩
      · obtain ⟨panic, returns⟩ := ih higher
        exact ⟨panic, .of_step goes returns⟩
  · rintro ⟨panic, fuel, done⟩
    induction fuel generalizing mmap top with
    | zero => cases done
    | succ fuel ih =>
      rcases pmmInitScan_cases m stop mmap top with ⟨_, ends⟩ | ⟨inside, fails, _⟩ | ⟨inside, _, higher, goes⟩
      · simp only [loop, ends, Option.some.injEq, reduceCtorEq] at done
      · exact .here inside fails
      · simp only [loop, goes] at done
        exact .later inside (ih _ higher done)

theorem panics_iff (hasMap : mbd.hasMemMap = true) :
    Panics m mbd mbdStart kernelEndPhys ↔ Refuses m mbd.mmapEnd mbd.mmapAddr := by
  rw [refuses_iff m mbd.mmapEnd mbd.mmapAddr 0]
  constructor
  · rintro ⟨fuel, panic, error⟩
    refine ⟨panic, fuel, ?_⟩
    simp only [pmmInit, hasMap, if_true] at error
    split at error
    · cases error
    · next scanned =>
      cases error
      exact scanned
    · split at error <;> cases error
  · rintro ⟨panic, fuel, done⟩
    exact ⟨fuel, panic, by simp only [pmmInit, hasMap, if_true, done]⟩

/-! ## Maps that slip through -/

/-- A first walk that goes on has passed the checks. -/
theorem pmmInitScan_inl {next : ℕ × ℕ} {top : ℕ} (step : pmmInitScan m stop (mmap, top) = .inl next) :
    mmapInside mmap stop = true ∧ ¬FailsCheck m stop mmap ∧ next.1 = MemoryMap.next m mmap := by
  rcases pmmInitScan_cases m stop mmap top with ⟨_, done⟩ | ⟨_, _, panic, done⟩ | ⟨inside, passes, higher, goes⟩
  · rw [done] at step
    cases step
  · rw [done] at step
    cases step
  · rw [goes] at step
    cases step
    exact ⟨inside, passes, rfl⟩

/-- A first walk that stops without a panic is at the end of the buffer. -/
theorem pmmInitScan_ok {top result : ℕ} (step : pmmInitScan m stop (mmap, top) = .inr (.ok result)) :
    mmapInside mmap stop = false := by
  rcases pmmInitScan_cases m stop mmap top with ⟨outside, _⟩ | ⟨_, _, panic, done⟩ | ⟨_, _, higher, goes⟩
  · exact outside
  · rw [done] at step
    cases step
  · rw [goes] at step
    cases step

/-- A first walk that reads inside the buffer only has gone from entry to entry. -/
theorem mapEntries_of_walk {start : ℕ} (small : stop < 2 ^ 32) {s : ℕ × ℕ} {trace : List (ℕ × ℕ)}
    {result : Except PmmPanic ℕ} (walk : Walk (pmmInitScan m stop) s trace result)
    (ok : ∃ top, result = .ok top) (below : s.1 ≤ stop)
    (inside : ∀ u ∈ trace, ∀ r ∈ MemoryMap.reads m u.1, start ≤ r.1 ∧ r.1 + r.2 ≤ stop) :
    ∃ entries, MapEntries m stop s.1 entries := by
  induction walk with
  | @stop s result done =>
    obtain ⟨top, rfl⟩ := ok
    have ended := pmmInitScan_ok done
    rw [mmapInside, decide_eq_false_iff_not, Nat.mod_eq_of_lt (by omega)] at ended
    have here : s.1 = stop := by omega
    rw [here]
    exact ⟨[], .nil⟩
  | @step s next trace result step rest ih =>
    obtain ⟨_, passes, follows⟩ := pmmInitScan_inl step
    rw [FailsCheck, ← or_assoc, not_or, not_or, Nat.not_lt, Nat.not_lt, sizeofMemoryMap] at passes
    obtain ⟨⟨large, fits⟩, _⟩ := passes
    have size : (MemoryMap.read m s.1).size < 2 ^ 32 := m.load32_lt _
    have last := (inside s List.mem_cons_self (s.1 + 20, 4) (List.mem_append_left _ (by simp))).2
    simp only at last
    have exact64 : next.1 = s.1 + (MemoryMap.read m s.1).size + 4 := by
      rw [follows, MemoryMap.next]
      exact Nat.mod_eq_of_lt (by simp only [MemoryMap.read] at size; omega)
    have later := fun u member => inside u (List.mem_cons_of_mem s member)
    have within : next.1 ≤ stop := by
      by_contra beyond
      rw [exact64] at beyond
      -- the sum has wrapped around, and the walk reads on there or ends 4 GiB above the end
      cases rest with
      | stop done =>
        obtain ⟨top, rfl⟩ := ok
        have ended := pmmInitScan_ok done
        rw [mmapInside, decide_eq_false_iff_not, exact64] at ended
        omega
      | step goes _ =>
        have reads := (later next List.mem_cons_self (next.1, 4) (List.mem_append_left _ (by simp))).2
        simp only [exact64] at reads
        omega
    obtain ⟨entries, map⟩ := ih ok within later
    rw [exact64] at map within
    exact ⟨_, .cons large within map⟩

/-! ## Maps that are tiled -/

/-- A loop through the addresses of a map is bounded. -/
theorem walkBounded_of_places {σ α : Type*} {body : σ → σ ⊕ α} {mem : σ → Memory} {place : σ → ℕ} {s : σ}
    {trace : List σ} {result : α} (map : MapEntries m (mbd.mmapAddr + mbd.mmapLength) mbd.mmapAddr entries)
    (walk : Walk body s trace result) (places : trace.map place = mapPlaces mbd.mmapAddr entries) :
    WalkBounded mbd body mem place s result := by
  refine ⟨trace, walk, ?_, fun u member r read => ?_⟩
  · have count := map.length_places
    rw [← places, List.length_map] at count
    simp only [sizeofMemoryMap]
    omega
  · obtain ⟨_, lower, large, inside⟩ := map.of_place (places ▸ List.mem_map_of_mem member)
    have field : place u ≤ r.1 ∧ r.1 + r.2 ≤ place u + 24 := by
      rw [MemoryMap.reads] at read
      split at read
      all_goals
        simp only [List.cons_append, List.nil_append, List.append_nil, List.mem_cons, List.not_mem_nil,
          or_false] at read
      · rcases read with rfl | rfl | rfl | rfl <;> simp
      · rcases read with rfl | rfl <;> simp
    omega

/-- On a map an entry fails a check, or none wraps. -/
theorem refuses_or_noWrap (map : MapEntries m stop mmap entries) (small : stop < 2 ^ 32) :
    Refuses m stop mmap ∨ ∀ e ∈ entries, e.NoWrap := by
  induction map with
  | nil => exact Or.inr fun e member => absurd member List.not_mem_nil
  | @cons mmap rest large inside _ ih =>
    have here := mmapInside_of_lt (show mmap < stop by omega) small
    by_cases noWrap : (MemoryMap.read m mmap).NoWrap
    · rcases ih with refuses | noWraps
      · exact Or.inl (.later here (MemoryMap.next_eq inside small ▸ refuses))
      · exact Or.inr (List.forall_mem_cons.mpr ⟨noWrap, noWraps⟩)
    · exact Or.inl (.here here (Or.inr (Or.inr noWrap)))

/-- The first walk over a map that none of its checks fails on. -/
theorem scan_bounded (map : MapEntries m (mbd.mmapAddr + mbd.mmapLength) mbd.mmapAddr entries)
    (small : mbd.mmapAddr + mbd.mmapLength < 2 ^ 32) (noWrap : ∀ e ∈ entries, e.NoWrap) :
    WalkBounded mbd (pmmInitScan m (mbd.mmapAddr + mbd.mmapLength)) (fun _ => m) Prod.fst (mbd.mmapAddr, 0)
      (.ok (availableTop 0 entries)) := by
  have here : Prod.fst (mbd.mmapAddr, 0) = mbd.mmapAddr := rfl
  have walked := map.walk (pmmInitScan m (mbd.mmapAddr + mbd.mmapLength)) Prod.fst (fun _ => True) ?_ ?_ trivial here
  · obtain ⟨trace, result, walk, places, _⟩ := walked
    have returns := (@pmmInitScan_returns_iff m _ _ 0 _ _ map small).mpr ⟨noWrap, rfl⟩
    obtain rfl := walk.returns.unique returns
    exact walkBounded_of_places map walk places
  · rintro ⟨p, top⟩ _ member
    obtain ⟨entry, _, large, inside⟩ := map.of_place member
    simp only at large inside entry
    have passes : ¬FailsCheck m (mbd.mmapAddr + mbd.mmapLength) p := by
      rintro (tooSmall | behind | wraps)
      · rw [sizeofMemoryMap] at tooSmall
        omega
      · rw [Nat.mod_eq_of_lt (by omega)] at behind
        omega
      · exact wraps (noWrap _ entry)
    obtain ⟨higher, step⟩ := pmmInitScan_next top (mmapInside_of_lt (by omega) small) passes
    exact ⟨_, step, trivial, MemoryMap.next_eq inside small⟩
  · rintro ⟨p, top⟩ _ ending
    simp only at ending
    refine ⟨.ok top, ?_⟩
    simp only [pmmInitScan, ending, mmapInside_end small, Bool.false_eq_true, if_false]

/-- The second walk over a map whose size fields the bitmap leaves alone. -/
theorem release_bounded (map : MapEntries m (mbd.mmapAddr + mbd.mmapLength) mbd.mmapAddr entries)
    (small : mbd.mmapAddr + mbd.mmapLength < 2 ^ 32)
    (apart : SizesApart kernelEndPhys mbd.mmapAddr entries) :
    ∃ placed, WalkBounded mbd (pmmInitRelease (mbd.mmapAddr + mbd.mmapLength)) (fun s => s.1.mem) Prod.snd
      (pmmInitPlace { mem := m } (availableTop 0 entries) kernelEndPhys, mbd.mmapAddr) placed := by
  have words := words_le_bitmapSize (availableTop 0 entries)
  let Inv := fun t : PmmState × ℕ => t.1.pmmBitmap = kernelEndPhys ∧
    t.1.bitsEnd ≤ kernelEndPhys + pmmBitmapSizeOf (availableTop 0 entries) ∧
    ∀ query, query < kernelEndPhys ∨ kernelEndPhys + pmmBitmapSizeOf (availableTop 0 entries) ≤ query →
      t.1.mem query = m query
  have start : Inv (pmmInitPlace { mem := m } (availableTop 0 entries) kernelEndPhys, mbd.mmapAddr) :=
    ⟨rfl, Nat.add_le_add_left words _, fun query away => Memory.fill_apply_of_outside _ _ away⟩
  -- the size field of an entry is what it was
  have next (t : PmmState × ℕ) (inv : Inv t) {p : ℕ} (member : p ∈ mapPlaces mbd.mmapAddr entries) :
      MemoryMap.next t.1.mem p = p + (MemoryMap.read m p).size + 4 := by
    obtain ⟨_, _, _, inside⟩ := map.of_place member
    have size : t.1.mem.load32 p = m.load32 p :=
      Memory.load_congr fun query lower upper => inv.2.2 query (apart p member query lower upper)
    rw [MemoryMap.next, size]
    exact MemoryMap.next_eq inside small
  have walked := map.walk (pmmInitRelease (mbd.mmapAddr + mbd.mmapLength)) Prod.snd Inv ?_ ?_ start rfl
  · obtain ⟨trace, placed, walk, places, _⟩ := walked
    exact ⟨placed, walkBounded_of_places map walk places⟩
  · rintro ⟨t, p⟩ inv member
    obtain ⟨_, _, large, inside⟩ := map.of_place member
    simp only at large inside member
    have here := mmapInside_of_lt (show p < mbd.mmapAddr + mbd.mmapLength by omega) small
    by_cases available : (MemoryMap.read t.mem p).type = 1
    · have frees := pmmInitRegion_update t (MemoryMap.read t.mem p).addr (MemoryMap.read t.mem p).len
      obtain ⟨bitmap, ends, kept⟩ := inv
      simp only at bitmap ends kept
      have inv' : Inv (pmmInitRegion t (MemoryMap.read t.mem p).addr (MemoryMap.read t.mem p).len, p) := by
        refine ⟨frees.bitmap.trans bitmap, frees.bitsEnd ▸ ends, fun query away => ?_⟩
        rw [← kept query away]
        exact frees.outside query (by omega)
      refine ⟨(pmmInitRegion t (MemoryMap.read t.mem p).addr (MemoryMap.read t.mem p).len, MemoryMap.next
        (pmmInitRegion t (MemoryMap.read t.mem p).addr (MemoryMap.read t.mem p).len).mem p), ?_, inv', ?_⟩
      · simp only [pmmInitRelease, here, available, if_true]
      · exact next _ inv' member
    · refine ⟨(t, MemoryMap.next t.mem p), ?_, inv, next _ inv member⟩
      simp only [pmmInitRelease, here, available, if_true, if_false]
  · rintro ⟨t, p⟩ _ ending
    simp only at ending
    refine ⟨t, ?_⟩
    simp only [pmmInitRelease, ending, mmapInside_end small, Bool.false_eq_true, if_false]

/-- A word of the freshly filled bitmap. -/
theorem pmmInitPlace_load32 {query : ℕ} (lower : kernelEndPhys ≤ query)
    (upper : query + 4 ≤ kernelEndPhys + pmmBitmapSizeOf top) :
    (pmmInitPlace { mem := m } top kernelEndPhys).mem.load32 query = 2 ^ 32 - 1 := by
  have byte (at_ : ℕ) (low : query ≤ at_) (high : at_ < query + 4) :
      (pmmInitPlace { mem := m } top kernelEndPhys).mem at_ = 0xFF :=
    Memory.fill_apply_of_inside _ _ (by omega) (by omega)
  simp only [Memory.load32, Memory.load, byte query (by omega) (by omega), byte (query + 1) (by omega) (by omega),
    byte (query + 1 + 1) (by omega) (by omega), byte (query + 1 + 1 + 1) (by omega) (by omega)]
  decide

/-- The overlap does harm: when the first entry of an accepted map lies in the bitmap, the second walk finds
the size `0xFFFFFFFF` there and reads 4 GiB above. -/
theorem walks_unbounded_of_covered (hasMap : mbd.hasMemMap = true) (small : mbd.mmapAddr + mbd.mmapLength < 2 ^ 32)
    {e : MemoryMap} {rest : List MemoryMap}
    (map : MapEntries m (mbd.mmapAddr + mbd.mmapLength) mbd.mmapAddr (e :: rest))
    (accepted : ¬Refuses m (mbd.mmapAddr + mbd.mmapLength) mbd.mmapAddr) (lower : kernelEndPhys ≤ mbd.mmapAddr)
    (upper : mbd.mmapAddr + 24 ≤ kernelEndPhys + pmmBitmapSizeOf (availableTop 0 (e :: rest))) :
    ¬WalksBounded m mbd mbdStart kernelEndPhys := by
  have ending : mbd.mmapEnd = mbd.mmapAddr + mbd.mmapLength := Nat.mod_eq_of_lt small
  have length := map.length_places
  rw [mapPlaces, List.length_cons] at length
  rintro (panics | ⟨top, placed, ⟨_, scan, _, _⟩, ⟨trace, release, _, inside⟩⟩)
  · rw [panics_iff hasMap, ending] at panics
    exact accepted panics
  · rw [ending] at scan release
    obtain ⟨_, rfl⟩ := (pmmInitScan_returns_iff map small).mp scan.returns
    have here := mmapInside_of_lt (show mbd.mmapAddr < mbd.mmapAddr + mbd.mmapLength by omega) small
    -- all bits of the entry are set: its type is none of the available ones
    have type : (MemoryMap.read (pmmInitPlace { mem := m } (availableTop 0 (e :: rest)) kernelEndPhys).mem
        mbd.mmapAddr).type = 2 ^ 32 - 1 := pmmInitPlace_load32 (by omega) (by omega)
    have reserved : ¬(MemoryMap.read (pmmInitPlace { mem := m } (availableTop 0 (e :: rest)) kernelEndPhys).mem
        mbd.mmapAddr).type = 1 := by
      rw [type]
      decide
    have next : MemoryMap.next (pmmInitPlace { mem := m } (availableTop 0 (e :: rest)) kernelEndPhys).mem
        mbd.mmapAddr = mbd.mmapAddr + 3 + 2 ^ 32 := by
      rw [MemoryMap.next, pmmInitPlace_load32 lower (by omega)]
      omega
    have first : pmmInitRelease (mbd.mmapAddr + mbd.mmapLength)
        (pmmInitPlace { mem := m } (availableTop 0 (e :: rest)) kernelEndPhys, mbd.mmapAddr) =
        .inl (pmmInitPlace { mem := m } (availableTop 0 (e :: rest)) kernelEndPhys, mbd.mmapAddr + 3 + 2 ^ 32) := by
      simp only [pmmInitRelease, here, if_neg reserved, next, if_true]
    have again : mmapInside (mbd.mmapAddr + 3 + 2 ^ 32) (mbd.mmapAddr + mbd.mmapLength) = true := by
      rw [mmapInside, decide_eq_true_iff]
      omega
    cases release with
    | stop done =>
      rw [first] at done
      cases done
    | step goes release =>
      rw [first] at goes
      cases goes
      cases release with
      | stop done =>
        simp only [pmmInitRelease, again, if_true, reduceCtorEq] at done
      | step goes release =>
        have reads := (inside _ (List.mem_cons_of_mem _ List.mem_cons_self) (mbd.mmapAddr + 3 + 2 ^ 32, 4)
          (List.mem_append_left _ (by simp))).2
        simp only at reads
        omega

/-- Bounded walks need a map that is refused or tiled. -/
theorem tiled_of_bounded (hasMap : mbd.hasMemMap = true) (small : mbd.mmapAddr + mbd.mmapLength < 2 ^ 32)
    (bounded : WalksBounded m mbd mbdStart kernelEndPhys) :
    Refuses m (mbd.mmapAddr + mbd.mmapLength) mbd.mmapAddr ∨
      ∃ entries, MapEntries m (mbd.mmapAddr + mbd.mmapLength) mbd.mmapAddr entries := by
  have ending : mbd.mmapEnd = mbd.mmapAddr + mbd.mmapLength := Nat.mod_eq_of_lt small
  rw [WalksBounded, panics_iff hasMap, ending] at bounded
  rcases bounded with refuses | ⟨top, placed, ⟨trace, walk, _, inside⟩, _⟩
  · exact Or.inl refuses
  · exact Or.inr (mapEntries_of_walk small walk ⟨top, rfl⟩ (Nat.le_add_right _ _) inside)

/-- For every memory and every buffer below 4 GiB: `pmm_init` stops in a panic or keeps both of its walks
inside the buffer, if the size fields lead to an entry that fails a check, or if the entries tile the buffer
and the bitmap is written over none of their size fields; and otherwise it does not, as far as the map is
concerned. -/
theorem walks_bounded (hasMap : mbd.hasMemMap = true) (small : mbd.mmapAddr + mbd.mmapLength < 2 ^ 32) :
    (Refuses m (mbd.mmapAddr + mbd.mmapLength) mbd.mmapAddr ∨
        (∃ entries, MapEntries m (mbd.mmapAddr + mbd.mmapLength) mbd.mmapAddr entries ∧
          SizesApart kernelEndPhys mbd.mmapAddr entries) →
      WalksBounded m mbd mbdStart kernelEndPhys) ∧
    (WalksBounded m mbd mbdStart kernelEndPhys →
      Refuses m (mbd.mmapAddr + mbd.mmapLength) mbd.mmapAddr ∨
        ∃ entries, MapEntries m (mbd.mmapAddr + mbd.mmapLength) mbd.mmapAddr entries) := by
  have ending : mbd.mmapEnd = mbd.mmapAddr + mbd.mmapLength := Nat.mod_eq_of_lt small
  refine ⟨?_, tiled_of_bounded hasMap small⟩
  rw [WalksBounded, panics_iff hasMap, ending]
  rintro (refuses | ⟨entries, map, apart⟩)
  · exact Or.inl refuses
  · rcases refuses_or_noWrap map small with refuses | noWrap
    · exact Or.inl refuses
    · obtain ⟨placed, release⟩ := release_bounded map small apart
      exact Or.inr ⟨_, placed, scan_bounded map small noWrap, release⟩

theorem walks_bounded_sample : WalksBounded sampleMemory sampleInfo 0x14F000 0x200000 := by
  have low : ∀ p ∈ mapPlaces sampleInfo.mmapAddr [lowMemory, highMemory], p ≤ 0x150018 := by decide
  refine (walks_bounded (by decide) (by decide)).1 (Or.inr ⟨_, sampleMap, fun p member query _ upper => Or.inl ?_⟩)
  have := low p member
  omega

/-- One entry of 24 bytes by the length of the buffer, of 4 GiB by its size field; 4 GiB above lies an entry
that ends 4 GiB above the end of the buffer. -/
def slippingMemory : Memory := (Memory.store32 (fun _ => 0) 0x150000 0xFFFFFFFC).store32 0x100150000 20

def slippingInfo : MultibootInfo := { sampleInfo with mmapLength := 24 }

/-- The walks pass both checks twice and read behind the buffer. -/
theorem walks_bounded_fails : ¬WalksBounded slippingMemory slippingInfo 0x14F000 0x200000 := by
  intro bounded
  rcases tiled_of_bounded (by decide) (by decide) bounded with refuses | ⟨entries, map⟩
  · cases refuses with
    | here _ fails => exact absurd fails (by decide)
    | later _ refuses =>
      have next : MemoryMap.next slippingMemory slippingInfo.mmapAddr = 0x100150000 := by decide
      rw [next] at refuses
      cases refuses with
      | here _ fails => exact absurd fails (by decide)
      | later _ refuses =>
        have next : MemoryMap.next slippingMemory 0x100150000 = 0x100150018 := by decide
        rw [next] at refuses
        cases refuses with
        | here inside => exact absurd inside (by decide)
        | later inside => exact absurd inside (by decide)
  · cases map with
    | cons _ inside => exact absurd inside (by decide)

end RaryOS.Soundness
