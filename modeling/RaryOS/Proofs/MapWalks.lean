import RaryOS.Proofs.KernelInit

/-! # The walks over the memory map

Every walk of the kernel over a map goes through its entries in order, each once, and stops at its
end. What a walk does at an entry is of no concern here, as long as it leaves the map in place.
-/

namespace RaryOS.Model

open RaryOS.Core

/-- The addresses of the entries of a map at `mmap`: the stride is `size + 4`. -/
def mapPlaces : (mmap : ℕ) → List MemoryMap → List ℕ
  | _, [] => []
  | mmap, e :: rest => mmap :: mapPlaces (mmap + e.size + 4) rest

section Places

variable {m : Memory} {stop mmap : ℕ} {entries : List MemoryMap} (map : MapEntries m stop mmap entries)
include map

/-- What there is at the address of an entry. -/
theorem MapEntries.of_place {p : ℕ} (member : p ∈ mapPlaces mmap entries) :
    MemoryMap.read m p ∈ entries ∧ mmap ≤ p ∧ 20 ≤ (MemoryMap.read m p).size ∧
      p + (MemoryMap.read m p).size + 4 ≤ stop := by
  induction map with
  | nil => cases member
  | cons large inside _ ih =>
    rcases List.mem_cons.mp member with rfl | later
    · exact ⟨List.mem_cons_self, le_refl p, large, inside⟩
    · obtain ⟨entry, lower, large, inside⟩ := ih later
      exact ⟨List.mem_cons_of_mem _ entry, by omega, large, inside⟩

/-- Every entry takes 24 bytes at least. -/
theorem MapEntries.length_places : mmap + 24 * (mapPlaces mmap entries).length ≤ stop := by
  induction map with
  | nil => exact le_refl _
  | cons large inside _ ih =>
    rw [mapPlaces, List.length_cons]
    omega

/-- The entries are those at the addresses. -/
theorem MapEntries.read_places : (mapPlaces mmap entries).map (MemoryMap.read m) = entries := by
  induction map with
  | nil => rfl
  | cons _ _ _ ih => rw [mapPlaces, List.map_cons, ih]

end Places

section Visits

variable {σ α : Type*}

/-- The walk rule: a body that goes on from each entry to the next, and stops at the end, goes through the
addresses of the entries. -/
theorem MapEntries.walk {m : Memory} {stop mmap : ℕ} {entries : List MemoryMap} {s : σ}
    (map : MapEntries m stop mmap entries) (body : σ → σ ⊕ α) (place : σ → ℕ) (Inv : σ → Prop)
    (continues : ∀ s, Inv s → place s ∈ mapPlaces mmap entries →
      ∃ t, body s = .inl t ∧ Inv t ∧ place t = place s + (MemoryMap.read m (place s)).size + 4)
    (stops : ∀ s, Inv s → place s = stop → ∃ result, body s = .inr result)
    (inv : Inv s) (here : place s = mmap) :
    ∃ trace result, Walk body s trace result ∧ trace.map place = mapPlaces mmap entries ∧ ∀ u ∈ trace, Inv u := by
  induction map generalizing s with
  | nil =>
    obtain ⟨result, done⟩ := stops s inv here
    exact ⟨[], result, .stop done, rfl, fun u member => absurd member List.not_mem_nil⟩
  | @cons mmap rest _ _ _ ih =>
    obtain ⟨t, step, invT, follows⟩ := continues s inv (here ▸ List.mem_cons_self)
    rw [here] at follows
    obtain ⟨trace, result, walk, places, invs⟩ := ih
      (fun u invU later => continues u invU (List.mem_cons_of_mem _ later)) invT follows
    refine ⟨s :: trace, result, .step step walk, ?_, ?_⟩
    · rw [List.map_cons, mapPlaces, places, here]
    · exact List.forall_mem_cons.mpr ⟨inv, invs⟩

/-- A loop started at `s` reads exactly these entries, one after the other at their places, and stops.
`mem` and `place` are the memory and the pointer of its state. -/
def VisitsMap (body : σ → σ ⊕ α) (mem : σ → Memory) (place : σ → ℕ) (s : σ) (entries : List MemoryMap) :
    Prop :=
  ∃ trace result, Walk body s trace result ∧ trace.map place = mapPlaces (place s) entries ∧
    trace.map (fun s => MemoryMap.read (mem s) (place s)) = entries

/-- The entry at the pointer of `s`, as the walks find it in a well-formed map. -/
structure EntryAt (mem : σ → Memory) (place : σ → ℕ) (stop : ℕ) (s : σ) (e : MemoryMap) : Prop where
  inside : mmapInside (place s) stop = true
  read : MemoryMap.read (mem s) (place s) = e
  large : 20 ≤ e.size
  bound : place s + e.size + 4 ≤ stop

/-- The walk rule for a body that keeps the bytes of the map. -/
theorem MapEntries.visits {m : Memory} {stop mmap : ℕ} {entries : List MemoryMap}
    {body : σ → σ ⊕ α} {mem : σ → Memory} {place : σ → ℕ} {s : σ} (Inv : σ → Prop)
    (map : MapEntries m stop mmap entries) (small : stop < 2 ^ 32)
    (keeps : ∀ s, Inv s → ∀ query, mmap ≤ query → query < stop → mem s query = m query)
    (continues : ∀ s, Inv s → ∀ e ∈ entries, EntryAt mem place stop s e →
      ∃ t, body s = .inl t ∧ Inv t ∧ place t = MemoryMap.next (mem t) (place s))
    (stops : ∀ s, Inv s → mmapInside (place s) stop = false → ∃ result, body s = .inr result)
    (inv : Inv s) (here : place s = mmap) : VisitsMap body mem place s entries := by
  have same (u : σ) (invU : Inv u) {p : ℕ} (member : p ∈ mapPlaces mmap entries) :
      MemoryMap.read (mem u) p = MemoryMap.read m p := by
    obtain ⟨_, lower, large, inside⟩ := map.of_place member
    exact MemoryMap.read_congr fun query low high => keeps u invU query (by omega) (by omega)
  have walked := map.walk body place Inv ?_ ?_ inv here
  · obtain ⟨trace, result, walk, places, invs⟩ := walked
    refine ⟨trace, result, walk, here ▸ places, ?_⟩
    rw [← map.read_places, ← places, List.map_map]
    apply List.map_congr_left
    intro u member
    exact same u (invs u member) (places ▸ List.mem_map_of_mem member)
  · intro u invU member
    obtain ⟨entry, lower, large, inside⟩ := map.of_place member
    obtain ⟨t, step, invT, next⟩ := continues u invU _ entry
      ⟨mmapInside_of_lt (by omega) small, same u invU member, large, inside⟩
    refine ⟨t, step, invT, ?_⟩
    rw [next, MemoryMap.next_eq (by rw [same t invT member]; exact inside) small, same t invT member]
  · intro u invU ending
    exact stops u invU (by rw [ending, mmapInside_end small])

end Visits

section Walks

variable {m : Memory} {stop mmap : ℕ} {entries : List MemoryMap}
  (map : MapEntries m stop mmap entries) (small : stop < 2 ^ 32)
include map small

/-- The first walk of `pmm_init`. -/
theorem pmmInitScan_visits (noWrap : ∀ e ∈ entries, e.NoWrap) (top : ℕ) :
    VisitsMap (pmmInitScan m stop) (fun _ => m) Prod.fst (mmap, top) entries := by
  refine map.visits (fun _ => True) small (fun _ _ _ _ _ => rfl) ?_ ?_ trivial rfl
  · rintro ⟨place, top⟩ - e member ⟨inside, read, large, bound⟩
    simp only at inside read bound
    have accepted : ¬(e.size < sizeofMemoryMap - 4 ∨ stop < (place + e.size + 4) % 2 ^ 32) := by
      rw [Nat.mod_eq_of_lt (by omega), sizeofMemoryMap]
      omega
    by_cases available : e.type = 1
    · have wraps := noWrap e member available
      refine ⟨(MemoryMap.next m place, if top < (e.addr + e.len) % 2 ^ 64 then (e.addr + e.len) % 2 ^ 64
        else top), ?_, trivial, rfl⟩
      simp only [pmmInitScan, inside, read, if_neg accepted, if_pos available, if_neg (Nat.not_lt.mpr wraps),
        if_true]
    · refine ⟨(MemoryMap.next m place, top), ?_, trivial, rfl⟩
      simp only [pmmInitScan, inside, read, if_neg accepted, if_neg available, if_true]
  · rintro ⟨place, top⟩ - outside
    simp only at outside
    exact ⟨.ok top, by simp only [pmmInitScan, outside, Bool.false_eq_true, if_false]⟩

/-- The second walk of `pmm_init`, over a bitmap apart from the map. -/
theorem pmmInitRelease_visits {s : PmmState}
    (agree : ∀ query, mmap ≤ query → query < stop → s.mem query = m query)
    (apart : ∀ query, mmap ≤ query → query < stop → query < s.pmmBitmap ∨ s.bitsEnd ≤ query) :
    VisitsMap (pmmInitRelease stop) (fun s => s.1.mem) Prod.snd (s, mmap) entries := by
  refine map.visits (fun t => t.1.pmmBitmap = s.pmmBitmap ∧ t.1.bitsEnd = s.bitsEnd ∧
    ∀ query, mmap ≤ query → query < stop → t.1.mem query = m query) small
    (fun _ inv => inv.2.2) ?_ ?_ ⟨rfl, rfl, agree⟩ rfl
  · rintro ⟨t, place⟩ ⟨bitmap, bitsEnd, kept⟩ e member ⟨inside, read, large, bound⟩
    simp only at inside read bound bitmap bitsEnd kept
    by_cases available : e.type = 1
    · have frees := pmmInitRegion_update t e.addr e.len
      refine ⟨(pmmInitRegion t e.addr e.len, MemoryMap.next (pmmInitRegion t e.addr e.len).mem place), ?_,
        ⟨frees.bitmap.trans bitmap, frees.bitsEnd.trans bitsEnd, fun query lower upper => ?_⟩, rfl⟩
      · simp only [pmmInitRelease, inside, read, available, if_true]
      · rw [frees.outside query (by rw [bitmap, bitsEnd]; exact apart query lower upper)]
        exact kept query lower upper
    · refine ⟨(t, MemoryMap.next t.mem place), ?_, ⟨bitmap, bitsEnd, kept⟩, rfl⟩
      simp only [pmmInitRelease, inside, read, available, if_true, if_false]
  · rintro ⟨t, place⟩ - outside
    simp only at outside
    exact ⟨t, by simp only [pmmInitRelease, outside, Bool.false_eq_true, if_false]⟩

/-- The walk of `kernel_main`. -/
theorem ramBody_visits (total : ℕ) :
    VisitsMap (ramBody m stop) (fun _ => m) Prod.fst (mmap, total) entries := by
  refine map.visits (fun _ => True) small (fun _ _ _ _ _ => rfl) ?_ ?_ trivial rfl
  · rintro ⟨place, total⟩ - e _ ⟨inside, read, _, _⟩
    simp only at inside read
    refine ⟨(MemoryMap.next m place, if e.type = 1 then (total + e.len) % 2 ^ 64 else total), ?_, trivial,
      rfl⟩
    simp only [ramBody, inside, read, if_true]
  · rintro ⟨place, total⟩ - outside
    simp only at outside
    exact ⟨total, by simp only [ramBody, outside, Bool.false_eq_true, if_false]⟩

end Walks

end RaryOS.Model
