import RaryOS.Proofs.VmmCalls
import RaryOS.Soundness.PmmFresh

/-! # What the mapping functions change

From the boot page tables on, through any run of the three mapping functions, a call changes the
translation of exactly the page it is asked to map; when it gives up it changes none. The page
allocator may be any that returns pages not in use.
-/

namespace RaryOS.Soundness

open RaryOS.Core RaryOS.Model

inductive MapSize where
  | page
  | huge2mb
  | huge1gb
deriving DecidableEq, Repr

/-- The page size as a power of two. -/
def MapSize.shift : MapSize → ℕ
  | .page => 12
  | .huge2mb => 21
  | .huge1gb => 30

/-- The number of tables above the one that holds the entry. -/
def MapSize.above : MapSize → ℕ
  | .page => 3
  | .huge2mb => 2
  | .huge1gb => 1

theorem MapSize.above_le (size : MapSize) : size.above ≤ 3 := by
  cases size <;> decide

/-- The bits that a mapping adds to the flags. -/
def MapSize.bits : MapSize → ℕ
  | .page => pagePresent
  | .huge2mb => pagePresent ||| pagePs
  | .huge1gb => pagePresent ||| pagePs

/-- A call of `vmm_map_page`, `vmm_map_huge_2mb` or `vmm_map_huge_1gb`. -/
structure VmmCall where
  size : MapSize
  virt : ℕ
  phys : ℕ
  flags : ℕ
deriving DecidableEq, Repr

namespace VmmCall

/-- A 48-bit virtual address, a physical address below 2^52, and flags without the page-size bit and
without address bits. -/
structure Allowed (call : VmmCall) : Prop where
  virt : call.virt < 2 ^ 48
  phys : call.phys < 2 ^ 52
  flags : PlainFlags call.flags

section Run

variable {σ : Type*} (pmm : PageAllocator σ) (pml4 : ℕ)

def run (s : σ) (call : VmmCall) : σ :=
  match call.size with
  | .page => vmmMapPage pmm pml4 s call.virt call.phys call.flags
  | .huge2mb => vmmMapHuge2mb pmm pml4 s call.virt call.phys call.flags
  | .huge1gb => vmmMapHuge1gb pmm pml4 s call.virt call.phys call.flags

/-- A large page that is not aligned. -/
def Misaligned (call : VmmCall) : Prop :=
  call.size ≠ .page ∧ (call.virt % 2 ^ call.size.shift ≠ 0 ∨ call.phys % 2 ^ call.size.shift ≠ 0)

/-- The alignment check fails, a large page lies on the path above the target level, or a missing
table cannot be allocated. -/
def Refused (s : σ) (call : VmmCall) : Prop :=
  call.Misaligned ∨ HugeAbove (pmm.mem s) pml4 ((pathOf call.virt).take call.size.above) ∨
    OutOfTables pmm s pml4 ((pathOf call.virt).take call.size.above)

end Run

end VmmCall

/-- The entry that a call writes. -/
def VmmCall.entry (call : VmmCall) : ℕ :=
  (call.phys &&& pteAddrMask) ||| call.size.bits ||| (call.flags &&& (2 ^ 64 - 1 - pagePs))

section MapAt

variable {σ : Type*} {pmm : PageAllocator σ} {Ready : σ → Set ℕ → Prop} {pml4 : ℕ}

/-- Descend, then write one entry. -/
def vmmMapAt (pmm : PageAllocator σ) (pml4 : ℕ) (s : σ) (path : List (Fin 512)) (idx entry : ℕ) : σ :=
  let down := vmmDescend pmm s pml4 path
  if down.1 = 0 then down.2
  else pmm.withMem down.2 (setTableEntry (pmm.mem down.2) down.1 idx entry)

theorem vmmMapAt_of_null {s : σ} {path : List (Fin 512)} {idx entry : ℕ}
    (null : (vmmDescend pmm s pml4 path).1 = 0) :
    vmmMapAt pmm pml4 s path idx entry = (vmmDescend pmm s pml4 path).2 :=
  if_pos null

theorem vmmMapAt_of_found {s : σ} {path : List (Fin 512)} {idx entry : ℕ}
    (nonzero : (vmmDescend pmm s pml4 path).1 ≠ 0) :
    vmmMapAt pmm pml4 s path idx entry = pmm.withMem (vmmDescend pmm s pml4 path).2
      (setTableEntry (pmm.mem (vmmDescend pmm s pml4 path).2) (vmmDescend pmm s pml4 path).1 idx entry) :=
  if_neg nonzero

theorem vmmMapAt_eq_then (s : σ) (path : List (Fin 512)) (idx entry : ℕ) :
    vmmMapAt pmm pml4 s path idx entry = vmmThen pmm id
      (fun s table => pmm.withMem s (setTableEntry (pmm.mem s) table idx entry)) s pml4 path :=
  rfl

theorem vmmMapPage_eq (s : σ) (virt phys flags : ℕ) :
    vmmMapPage pmm pml4 s virt phys flags =
      vmmMapAt pmm pml4 s ((pathOf virt).take 3) (ptIndex virt)
        ((phys &&& pteAddrMask) ||| pagePresent ||| (flags &&& (2 ^ 64 - 1 - pagePs))) := by
  rw [pathOf, List.take_succ_cons, List.take_succ_cons, List.take_succ_cons, List.take_zero,
    vmmMapAt_eq_then, vmmThen_three, pml4Index_eq, pdptIndex_eq, pdIndex_eq]
  rfl

theorem vmmMapHuge2mb_eq (s : σ) (virt phys flags : ℕ) :
    vmmMapHuge2mb pmm pml4 s virt phys flags =
      if virt % 0x200000 ≠ 0 ∨ phys % 0x200000 ≠ 0 then s
      else vmmMapAt pmm pml4 s ((pathOf virt).take 2) (pdIndex virt)
        ((phys &&& pteAddrMask) ||| pagePresent ||| pagePs ||| (flags &&& (2 ^ 64 - 1 - pagePs))) := by
  rw [pathOf, List.take_succ_cons, List.take_succ_cons, List.take_zero, vmmMapAt_eq_then, vmmThen_two,
    pml4Index_eq, pdptIndex_eq]
  rfl

theorem vmmMapHuge1gb_eq (s : σ) (virt phys flags : ℕ) :
    vmmMapHuge1gb pmm pml4 s virt phys flags =
      if virt % 0x40000000 ≠ 0 ∨ phys % 0x40000000 ≠ 0 then s
      else vmmMapAt pmm pml4 s ((pathOf virt).take 1) (pdptIndex virt)
        ((phys &&& pteAddrMask) ||| pagePresent ||| pagePs ||| (flags &&& (2 ^ 64 - 1 - pagePs))) := by
  rw [pathOf, List.take_succ_cons, List.take_zero, vmmMapAt_eq_then, vmmThen_one, pml4Index_eq]
  rfl

/-- What descending and writing an entry that maps a page does. -/
theorem vmmMapAt_spec (fresh : FreshPages pmm Ready) {s : σ} {used : Set ℕ}
    (tables : VmmTree pmm Ready pml4 s used) {path : List (Fin 512)} (i : Fin 512) {entry : ℕ}
    (short : path.length ≤ 3) (small : entry < 2 ^ 64) (present : entryPresent entry = true)
    (leaf : path.length < 3 → entryPs entry = true) :
    (∃ used', VmmTree pmm Ready pml4 (vmmMapAt pmm pml4 s path i entry) used') ∧
      (∀ virt, ¬path ++ [i] <+: pathOf virt →
        leafEntry (pmm.mem (vmmMapAt pmm pml4 s path i entry)) pml4 virt =
          leafEntry (pmm.mem s) pml4 virt) ∧
      (HugeAbove (pmm.mem s) pml4 path ∨ OutOfTables pmm s pml4 path → ∀ virt,
        leafEntry (pmm.mem (vmmMapAt pmm pml4 s path i entry)) pml4 virt =
          leafEntry (pmm.mem s) pml4 virt) ∧
      (¬(HugeAbove (pmm.mem s) pml4 path ∨ OutOfTables pmm s pml4 path) → ∀ virt rest,
        pathOf virt = path ++ i :: rest →
          leafEntry (pmm.mem (vmmMapAt pmm pml4 s path i entry)) pml4 virt =
            some (entry, rest.length)) := by
  obtain ⟨used', grows, outcome⟩ := vmmDescend_spec fresh tables (p := [])
    (by simpa using short) rfl
  rcases outcome with ⟨null, refused⟩ | ⟨nonzero, notRefused, reach⟩
  · rw [vmmMapAt_of_null null]
    exact ⟨⟨used', grows.tables⟩, fun virt _ => grows.same virt, fun _ => grows.same,
      fun accepted => absurd refused accepted⟩
  · obtain ⟨tables', others, here, _⟩ := grows.tables.write_leaf fresh i short reach small present leaf
    rw [vmmMapAt_of_found nonzero, pmm.mem_withMem]
    exact ⟨⟨used', tables'⟩, fun virt apart => (others virt apart).trans (grows.same virt),
      fun refused => absurd refused notRefused, fun _ => here⟩

end MapAt

namespace VmmCall

section Call

variable {σ : Type*} {pmm : PageAllocator σ} {Ready : σ → Set ℕ → Prop} {pml4 : ℕ} {s : σ}
  {used : Set ℕ} {call : VmmCall}

theorem entry_fields (allowed : call.Allowed) :
    EntryFields call.entry call.phys call.size.bits call.flags ∧ call.entry < 2 ^ 64 := by
  have bits : call.size.bits < 2 ^ 12 ∧ call.size.bits.testBit 0 = true := by
    cases call.size <;> decide
  refine ⟨newEntry_fields allowed.flags bits.1 bits.2, ?_⟩
  refine Nat.or_lt_two_pow (Nat.or_lt_two_pow ?_ (Nat.lt_trans bits.1 (by decide))) ?_
  · exact Nat.lt_of_le_of_lt Nat.and_le_right (by decide)
  · exact Nat.lt_of_le_of_lt Nat.and_le_right (by decide)

/-- The entry of a large page, as the functions put it together. -/
theorem entry_of_large (size : MapSize) (virt phys flags : ℕ) (large : size.bits = pagePresent ||| pagePs) :
    (phys &&& pteAddrMask) ||| pagePresent ||| pagePs ||| (flags &&& (2 ^ 64 - 1 - pagePs)) =
      (VmmCall.mk size virt phys flags).entry := by
  rw [VmmCall.entry, large, ← Nat.or_assoc]

/-- The index of the entry in its table. -/
def index (call : VmmCall) : Fin 512 := Fin.ofNat 512 (call.virt / 2 ^ call.size.shift)

/-- Every call that passes its alignment check descends and writes its entry. -/
theorem run_eq (call : VmmCall) (aligned : ¬call.Misaligned) :
    call.run pmm pml4 s =
      vmmMapAt pmm pml4 s ((pathOf call.virt).take call.size.above) call.index call.entry := by
  obtain ⟨size, virt, phys, flags⟩ := call
  cases size with
  | page => exact vmmMapPage_eq s virt phys flags
  | huge2mb =>
    rw [Misaligned, not_and] at aligned
    have entry := entry_of_large .huge2mb virt phys flags rfl
    exact (vmmMapHuge2mb_eq s virt phys flags).trans ((if_neg (aligned nofun)).trans (by rw [entry]; rfl))
  | huge1gb =>
    rw [Misaligned, not_and] at aligned
    have entry := entry_of_large .huge1gb virt phys flags rfl
    exact (vmmMapHuge1gb_eq s virt phys flags).trans ((if_neg (aligned nofun)).trans (by rw [entry]; rfl))

theorem run_misaligned (s : σ) (misaligned : call.Misaligned) : call.run pmm pml4 s = s := by
  obtain ⟨size, virt, phys, flags⟩ := call
  cases size with
  | page => exact absurd rfl misaligned.1
  | huge2mb => exact (vmmMapHuge2mb_eq s virt phys flags).trans (if_pos misaligned.2)
  | huge1gb => exact (vmmMapHuge1gb_eq s virt phys flags).trans (if_pos misaligned.2)

/-- The addresses whose path goes through the written entry are those of the page. -/
theorem through_iff (allowed : call.Allowed) {virt : ℕ} (small : virt < 2 ^ 48) :
    (pathOf call.virt).take call.size.above ++ [call.index] <+: pathOf virt ↔
      virt / 2 ^ call.size.shift = call.virt / 2 ^ call.size.shift := by
  obtain ⟨huge, large, page⟩ := take_prefix_iff allowed.virt small
  obtain ⟨size, target, phys, flags⟩ := call
  cases size with
  | page => exact page.trans eq_comm
  | huge2mb => exact large.trans eq_comm
  | huge1gb => exact huge.trans eq_comm

/-- The translation of an address of the page by the written entry. -/
theorem resolve_entry (allowed : call.Allowed) (aligned : ¬call.Misaligned) {virt : ℕ}
    {below : List (Fin 512)}
    (split : (pathOf call.virt).take call.size.above ++ call.index :: below = pathOf virt) :
    resolve virt (some (call.entry, below.length)) =
      .ok ⟨call.phys / 4096 * 4096 + virt % 2 ^ call.size.shift, call.flags ||| call.size.bits⟩ := by
  obtain ⟨fields, _⟩ := entry_fields allowed
  have phys := allowed.phys
  have above : call.size.above + 1 + below.length = 4 := by
    have length := congrArg List.length split
    have four (v : ℕ) : (pathOf v).length = 4 := rfl
    rw [List.length_append, List.length_take, List.length_cons, four, four] at length
    have small : call.size.above ≤ 4 := by cases call.size <;> decide
    omega
  have shift : 12 + 9 * below.length = call.size.shift := by
    cases size : call.size <;> rw [size] at above <;> simp only [MapSize.above, MapSize.shift] at above ⊢ <;>
      omega
  have inner : below.length ≠ 3 := by
    have positive : 0 < call.size.above := by cases call.size <;> decide
    omega
  have base : call.phys / 4096 % 2 ^ 40 * 4096 / 2 ^ call.size.shift * 2 ^ call.size.shift =
      call.phys / 4096 * 4096 := by
    rw [Misaligned, not_and] at aligned
    cases size : call.size <;> simp only [size, MapSize.shift] at aligned ⊢
    · omega
    · have := aligned nofun
      omega
    · have := aligned nofun
      omega
  simp only [resolve, fields.present, Bool.not_true, Bool.false_eq_true, if_false, if_neg inner, entryLeaf,
    shift, fields.addr, fields.flags, and_pteAddrMask, base]

/-- What one call does to the translations. -/
structure Effect (pmm : PageAllocator σ) (pml4 : ℕ) (s : σ) (call : VmmCall) : Prop where
  others : ∀ virt < 2 ^ 48, virt / 2 ^ call.size.shift ≠ call.virt / 2 ^ call.size.shift →
    walk (pmm.mem (call.run pmm pml4 s)) pml4 virt = walk (pmm.mem s) pml4 virt
  mapped : ¬call.Refused pmm pml4 s → ∀ virt < 2 ^ 48,
    virt / 2 ^ call.size.shift = call.virt / 2 ^ call.size.shift →
      walk (pmm.mem (call.run pmm pml4 s)) pml4 virt =
        .ok ⟨call.phys / 4096 * 4096 + virt % 2 ^ call.size.shift, call.flags ||| call.size.bits⟩
  refused : call.Refused pmm pml4 s → ∀ virt,
    walk (pmm.mem (call.run pmm pml4 s)) pml4 virt = walk (pmm.mem s) pml4 virt

/-- One call: the tables stay a tree, and the translations change as described. -/
theorem effect (fresh : FreshPages pmm Ready) (tables : VmmTree pmm Ready pml4 s used)
    (allowed : call.Allowed) :
    (∃ used', VmmTree pmm Ready pml4 (call.run pmm pml4 s) used') ∧ call.Effect pmm pml4 s := by
  by_cases misaligned : call.Misaligned
  · have stays := @run_misaligned _ pmm pml4 _ s misaligned
    refine ⟨⟨used, by rw [stays]; exact tables⟩, fun virt _ _ => ?_, fun accepted => ?_, fun _ virt => ?_⟩
    · rw [stays]
    · exact absurd (Or.inl misaligned) accepted
    · rw [stays]
  · obtain ⟨fields, small⟩ := entry_fields allowed
    have short := (List.length_take_le _ (pathOf call.virt)).trans call.size.above_le
    have leaf : ((pathOf call.virt).take call.size.above).length < 3 → entryPs call.entry = true := by
      intro above
      rw [fields.ps]
      cases size : call.size with
      | page =>
        rw [size] at above
        exact absurd above (lt_irrefl 3)
      | huge2mb => decide
      | huge1gb => decide
    obtain ⟨tables', apart, refused, mapped⟩ := vmmMapAt_spec fresh tables call.index short small
      fields.present leaf
    rw [← run_eq call misaligned] at tables' apart refused mapped
    have cases_ : call.Refused pmm pml4 s ↔
        HugeAbove (pmm.mem s) pml4 ((pathOf call.virt).take call.size.above) ∨
          OutOfTables pmm s pml4 ((pathOf call.virt).take call.size.above) :=
      or_iff_right misaligned
    refine ⟨tables', fun virt bound other => ?_, fun accepted virt bound same => ?_,
      fun gaveUp virt => ?_⟩
    · exact walk_of_leaf (apart virt (mt (through_iff allowed bound).mp other))
    · obtain ⟨below, split⟩ := (through_iff allowed bound).mpr same
      rw [List.append_assoc, List.singleton_append] at split
      rw [walk_eq_leaf, mapped (mt cases_.mpr accepted) virt below split.symm,
        resolve_entry allowed misaligned split]
    · exact walk_of_leaf (refused (cases_.mp gaveUp) virt)

end Call

end VmmCall

section Runs

variable {σ : Type*} {pmm : PageAllocator σ} {Ready : σ → Set ℕ → Prop} {pml4 pdpt pd : ℕ} {s₀ s : σ}

/-- A call with allowed arguments. -/
def VmmStep (pmm : PageAllocator σ) (pml4 : ℕ) (s : σ) (call : VmmCall) (t : σ) : Prop :=
  call.Allowed ∧ t = call.run pmm pml4 s

/-- The state after booting: the page tables are those of `boot_main`, and the page allocator counts
their pages as used. -/
structure VmmBoot (pmm : PageAllocator σ) (Ready : σ → Set ℕ → Prop) (pml4 pdpt pd : ℕ) (s : σ) :
    Prop where
  symbols : BootSymbols pml4 pdpt pd
  tables : ∃ m, ∀ t ∈ bootPages pml4 pdpt pd,
    Memory.Agree (bootMainTables m pml4 pdpt pd) (pmm.mem s) t 4096
  ready : Ready s (bootPages pml4 pdpt pd)

theorem VmmBoot.contents (boot : VmmBoot pmm Ready pml4 pdpt pd s) :
    BootEntries (pmm.mem s) pml4 pdpt pd := by
  obtain ⟨m, agree⟩ := boot.tables
  exact (bootMainTables_entries m boot.symbols).congr agree

theorem VmmBoot.tree (boot : VmmBoot pmm Ready pml4 pdpt pd s) :
    VmmTree pmm Ready pml4 s (bootPages pml4 pdpt pd) :=
  ⟨boot.ready, boot_tree boot.symbols boot.contents, fun _ => boot_reached boot.symbols boot.contents,
    fun _ => isPage_of_mem boot.symbols⟩

/-- After any run of the mapping functions from the boot tables, a further call changes the
translation of its own page only, maps it as asked unless it is refused, and changes no translation
when it is. -/
theorem vmm_frame (fresh : FreshPages pmm Ready) (boot : VmmBoot pmm Ready pml4 pdpt pd s₀)
    {calls : List VmmCall} (run : Path (VmmStep pmm pml4) s₀ calls s) {call : VmmCall}
    (allowed : call.Allowed) : call.Effect pmm pml4 s := by
  obtain ⟨used, tables⟩ := run.invariant (fun s => ∃ used, VmmTree pmm Ready pml4 s used)
    ⟨_, boot.tree⟩ fun s call t ⟨_, tables⟩ step => by
      obtain ⟨allowed, rfl⟩ := step
      exact (call.effect fresh tables allowed).1
  exact (call.effect fresh tables allowed).2

end Runs

/-! The sample machine with the boot tables in its kernel image, and `pmm.c` as the page allocator. -/

def sampleTables : Memory := bootMainTables sampleMemory 0x110000 0x111000 0x112000

theorem sampleSymbols : BootSymbols 0x110000 0x111000 0x112000 where
  pagePml4 := ⟨⟨by decide, by decide, by decide⟩, by decide⟩
  pagePdpt := ⟨⟨by decide, by decide, by decide⟩, by decide⟩
  pagePd := ⟨⟨by decide, by decide, by decide⟩, by decide⟩
  apart := ⟨by decide, by decide, by decide⟩

theorem samplePages {t : ℕ} (member : t ∈ bootPages 0x110000 0x111000 0x112000) :
    0x110000 ≤ t ∧ t + 0x1000 ≤ 0x116000 := by
  rcases member with rfl | rfl | ⟨k, bound, rfl⟩ <;> omega

/-- The tables do not touch the map. -/
theorem bootTables_map {m : Memory} {entries : List MemoryMap}
    (map : MapEntries m 0x150030 0x150000 entries) :
    MapEntries (bootMainTables m 0x110000 0x111000 0x112000) 0x150030 0x150000 entries :=
  map.congr fun query lower upper => bootMainTables_apply_of_outside _ fun t member => by
    have := samplePages member
    omega

theorem sampleTables_map : MapEntries sampleTables 0x150030 0x150000 [lowMemory, highMemory] :=
  bootTables_map sampleMap

/-- After `pmm_init` on the sample machine the mapping functions may start. -/
theorem sample_vmmBoot {t : PmmState}
    (accepts : PmmAccepts { mem := sampleTables } sampleInfo 0x14F000 0x200000 t) :
    PmmClear t ∧ VmmBoot pmmAllocator (PmmReady t) 0x110000 0x111000 0x112000 t := by
  obtain ⟨_, initialized⟩ := accepts.initialized (by decide) sampleTables_map
    (fun query _ upper => Or.inl (Nat.lt_trans upper (by decide)))
  refine ⟨pmmClear_of_initialized initialized (by decide) (by decide) (by decide), sampleSymbols,
    ⟨sampleMemory, fun page member query _ upper => ?_⟩, ∅, owned_of_accepts accepts,
    fun page member => ?_⟩
  · have := samplePages member
    exact initialized.outside query (Or.inl (by omega))
  · have := samplePages member
    exact image_inUse initialized (by decide) (by decide) (by decide) (by omega)
      (by simp only [pageSize]; omega)

theorem sampleTables_accepts :
    ∃ t, PmmAccepts { mem := sampleTables } sampleInfo 0x14F000 0x200000 t :=
  pmmInit_accepts (by decide) sampleTables_map
    (fun query _ upper => Or.inl (Nat.lt_trans upper (by decide))) (by decide)

theorem vmm_frame_sample :
    ∃ t s, PmmAccepts { mem := sampleTables } sampleInfo 0x14F000 0x200000 t ∧
      Path (VmmStep pmmAllocator 0x110000) t [⟨.huge2mb, 0x100000000, 0x40000000, 2⟩] s ∧
      VmmCall.Effect pmmAllocator 0x110000 s ⟨.page, 0x100200000, 0x5000, 3⟩ := by
  obtain ⟨t, accepts⟩ := sampleTables_accepts
  obtain ⟨clear, boot⟩ := sample_vmmBoot accepts
  have first : VmmCall.Allowed ⟨.huge2mb, 0x100000000, 0x40000000, 2⟩ :=
    ⟨by decide, by decide, ⟨by decide, by decide, by decide⟩⟩
  have second : VmmCall.Allowed ⟨.page, 0x100200000, 0x5000, 3⟩ :=
    ⟨by decide, by decide, ⟨by decide, by decide, by decide⟩⟩
  have run : Path (VmmStep pmmAllocator 0x110000) t [⟨.huge2mb, 0x100000000, 0x40000000, 2⟩] _ :=
    .cons ⟨first, rfl⟩ (.nil _)
  exact ⟨t, _, accepts, run, vmm_frame (pmm_freshPages clear) boot run second⟩

end RaryOS.Soundness
