import RaryOS.Proofs.Tlb
import RaryOS.Soundness.VmmFrame

/-! # When the cached translations stay right

A mapping function invalidates one address. This is enough as long as the entry that it replaces maps
no page but the one that contains this address: not if a large page takes the place of a table. -/

namespace RaryOS.Soundness

open RaryOS.Core RaryOS.Model

section Flush

variable {σ : Type*} {pmm : PageAllocator σ} {Ready : σ → Set ℕ → Prop} {pml4 : ℕ}

/-- The `invlpg` after descending and writing one entry. -/
def vmmFlushAt (pmm : PageAllocator σ) (pml4 : ℕ) (s : σ) (path : List (Fin 512)) (idx entry virt : ℕ) :
    Option ℕ :=
  let down := vmmDescend pmm s pml4 path
  if down.1 = 0 then none else vmmFlush virt (tableEntry (pmm.mem down.2) down.1 idx) entry

theorem vmmFlushAt_eq_then (s : σ) (path : List (Fin 512)) (idx entry virt : ℕ) :
    vmmFlushAt pmm pml4 s path idx entry virt = vmmThen pmm (fun _ => none)
      (fun s table => vmmFlush virt (tableEntry (pmm.mem s) table idx) entry) s pml4 path :=
  rfl

/-- Where nothing is invalidated no address is mapped otherwise than before. -/
theorem vmmFlushAt_spec (fresh : FreshPages pmm Ready) {s : σ} {used : Set ℕ}
    (tables : VmmTree pmm Ready pml4 s used) {path : List (Fin 512)} (i : Fin 512) {entry virt : ℕ}
    (short : path.length ≤ 3) (small : entry < 2 ^ 64) :
    (vmmFlushAt pmm pml4 s path i entry virt = none ∧ ∀ v,
        leafEntry (pmm.mem (vmmMapAt pmm pml4 s path i entry)) pml4 v = leafEntry (pmm.mem s) pml4 v) ∨
      (vmmFlushAt pmm pml4 s path i entry virt = some virt ∧
        ¬(HugeAbove (pmm.mem s) pml4 path ∨ OutOfTables pmm s pml4 path)) := by
  obtain ⟨used', grows, outcome⟩ := @vmmDescend_spec _ _ _ _ fresh path s used tables [] pml4
    (by rwa [List.length_nil, Nat.zero_add]) rfl
  rcases outcome with ⟨null, _⟩ | ⟨nonzero, accepted, reach⟩
  · rw [vmmMapAt_of_null null]
    exact Or.inl ⟨if_pos null, grows.same⟩
  · have flush : vmmFlushAt pmm pml4 s path i entry virt = vmmFlush virt
        (tableEntry (pmm.mem (vmmDescend pmm s pml4 path).2) (vmmDescend pmm s pml4 path).1 i) entry :=
      if_neg nonzero
    rw [flush, vmmFlush, vmmMapAt_of_found nonzero, pmm.mem_withMem]
    by_cases changed : tableEntry (pmm.mem (vmmDescend pmm s pml4 path).2)
        (vmmDescend pmm s pml4 path).1 i ≠ entry
    · exact Or.inr ⟨if_pos changed, accepted⟩
    · -- the entry is written again as it was
      refine Or.inl ⟨if_neg changed, fun v => ?_⟩
      rw [not_not] at changed
      obtain ⟨_, page⟩ := grows.tables.isPage short reach
      refine (leafEntry_of_lookup (lookup_of_agree (fun w j reached => ?_) (le_refl 4))).trans
        (grows.same v)
      by_cases here : w = (vmmDescend pmm s pml4 path).1 ∧ j = i
      · obtain ⟨rfl, rfl⟩ := here
        rw [tableEntries_set_same _ _ _ small]
        exact changed.symm
      · exact tableEntries_set_other page (grows.tables.pages w (grows.tables.reached w reached)) here entry

end Flush

namespace VmmCall

section Call

variable {σ : Type*} (pmm : PageAllocator σ) (pml4 : ℕ)

/-- The address that a call invalidates. -/
def flush (s : σ) (call : VmmCall) : Option ℕ :=
  match call.size with
  | .page => vmmMapPageFlush pmm pml4 s call.virt call.phys call.flags
  | .huge2mb => vmmMapHuge2mbFlush pmm pml4 s call.virt call.phys call.flags
  | .huge1gb => vmmMapHuge1gbFlush pmm pml4 s call.virt call.phys call.flags

/-- The address goes through the entry that the call writes. -/
def Touches (call : VmmCall) (virt : ℕ) : Prop :=
  virt % 2 ^ 48 / 2 ^ call.size.shift = call.virt % 2 ^ 48 / 2 ^ call.size.shift

/-- The call gives up, or the entry that it replaces maps no page but the one that contains the
address of the call. -/
def ReplacesOnePage (s : σ) (call : VmmCall) : Prop :=
  call.Refused pmm pml4 s ∨ ∀ virt leaf, Canonical virt → call.Touches virt →
    walk (pmm.mem s) pml4 virt = .ok leaf →
      virt / 2 ^ walkShift (pmm.mem s) pml4 virt = call.virt / 2 ^ walkShift (pmm.mem s) pml4 virt

variable {pmm pml4} {Ready : σ → Set ℕ → Prop} {s : σ} {used : Set ℕ} {call : VmmCall}

theorem flush_eq (call : VmmCall) (aligned : ¬call.Misaligned) :
    call.flush pmm pml4 s =
      vmmFlushAt pmm pml4 s ((pathOf call.virt).take call.size.above) call.index call.entry call.virt := by
  obtain ⟨size, virt, phys, flags⟩ := call
  cases size with
  | page =>
    rw [MapSize.above, pathOf, List.take_succ_cons, List.take_succ_cons, List.take_succ_cons,
      List.take_zero, vmmFlushAt_eq_then, vmmThen_three, pml4Index_eq, pdptIndex_eq, pdIndex_eq]
    rfl
  | huge2mb =>
    rw [Misaligned, not_and] at aligned
    have entry := entry_of_large .huge2mb virt phys flags rfl
    rw [MapSize.above, pathOf, List.take_succ_cons, List.take_succ_cons, List.take_zero, vmmFlushAt_eq_then,
      vmmThen_two, pml4Index_eq, pdptIndex_eq, ← entry]
    have large : MapSize.huge2mb ≠ .page := by decide
    exact if_neg (aligned large)
  | huge1gb =>
    rw [Misaligned, not_and] at aligned
    have entry := entry_of_large .huge1gb virt phys flags rfl
    rw [MapSize.above, pathOf, List.take_succ_cons, List.take_zero, vmmFlushAt_eq_then, vmmThen_one, pml4Index_eq,
      ← entry]
    have large : MapSize.huge1gb ≠ .page := by decide
    exact if_neg (aligned large)

theorem flush_misaligned (misaligned : call.Misaligned) : call.flush pmm pml4 s = none := by
  obtain ⟨size, virt, phys, flags⟩ := call
  cases size with
  | page => exact absurd rfl misaligned.1
  | huge2mb => exact if_pos misaligned.2
  | huge1gb => exact if_pos misaligned.2

/-- The entry of a call is present, and maps a large page where there is a level below. -/
theorem entry_bits (call : VmmCall) : call.entry < 2 ^ 64 ∧ entryPresent call.entry = true ∧
    (call.size ≠ .page → entryPs call.entry = true) := by
  have bits : call.size.bits < 2 ^ 64 ∧ call.size.bits.testBit 0 = true := by
    cases call.size <;> decide
  refine ⟨?_, ?_, fun large => ?_⟩
  · refine Nat.or_lt_two_pow (Nat.or_lt_two_pow ?_ bits.1) ?_
    · exact Nat.lt_of_le_of_lt Nat.and_le_right (by decide)
    · exact Nat.lt_of_le_of_lt Nat.and_le_right (by decide)
  · rw [entryPresent_eq, entry, Nat.testBit_or, Nat.testBit_or, bits.2, Bool.or_true, Bool.true_or]
  · have ps : call.size.bits.testBit 7 = true := by
      cases size : call.size with
      | page => exact absurd size large
      | huge2mb => decide
      | huge1gb => decide
    rw [entryPs_eq, entry, Nat.testBit_or, Nat.testBit_or, ps, Bool.or_true, Bool.true_or]

theorem touches_iff (virt : ℕ) :
    (pathOf call.virt).take call.size.above ++ [call.index] <+: pathOf virt ↔ call.Touches virt := by
  obtain ⟨size, target, phys, flags⟩ := call
  cases size with
  | page =>
    simp only [Touches, index, MapSize.above, MapSize.shift, pathOf, List.take_succ_cons, List.take_zero,
      List.cons_append, List.nil_append, List.cons_prefix_cons, List.nil_prefix, and_true, ofNat_eq_iff]
    omega
  | huge2mb =>
    simp only [Touches, index, MapSize.above, MapSize.shift, pathOf, List.take_succ_cons, List.take_zero,
      List.cons_append, List.nil_append, List.cons_prefix_cons, List.nil_prefix, and_true, ofNat_eq_iff]
    omega
  | huge1gb =>
    simp only [Touches, index, MapSize.above, MapSize.shift, pathOf, List.take_succ_cons, List.take_zero,
      List.cons_append, List.nil_append, List.cons_prefix_cons, List.nil_prefix, and_true, ofNat_eq_iff]
    omega

/-- A call either maps every address as before, or it invalidates its address and changes what goes
through its entry only. -/
theorem flush_spec (fresh : FreshPages pmm Ready) (tables : VmmTree pmm Ready pml4 s used)
    (call : VmmCall) :
    (∃ used', VmmTree pmm Ready pml4 (call.run pmm pml4 s) used') ∧
      ((call.flush pmm pml4 s = none ∧ ∀ v,
          leafEntry (pmm.mem (call.run pmm pml4 s)) pml4 v = leafEntry (pmm.mem s) pml4 v) ∨
        (call.flush pmm pml4 s = some call.virt ∧ ¬call.Refused pmm pml4 s ∧ ∀ v, ¬call.Touches v →
          leafEntry (pmm.mem (call.run pmm pml4 s)) pml4 v = leafEntry (pmm.mem s) pml4 v)) := by
  by_cases misaligned : call.Misaligned
  · have stays := @run_misaligned _ pmm pml4 _ s misaligned
    rw [stays]
    exact ⟨⟨used, tables⟩, Or.inl ⟨flush_misaligned misaligned, fun _ => rfl⟩⟩
  · obtain ⟨small, present, ps⟩ := entry_bits call
    have short := (List.length_take_le _ (pathOf call.virt)).trans call.size.above_le
    have leaf : ((pathOf call.virt).take call.size.above).length < 3 → entryPs call.entry = true := by
      intro above
      apply ps
      intro size
      rw [size] at above
      exact absurd above (lt_irrefl 3)
    obtain ⟨tables', apart, _, _⟩ := vmmMapAt_spec fresh tables call.index short small present leaf
    have flush := @vmmFlushAt_spec _ pmm Ready pml4 fresh s used tables
      ((pathOf call.virt).take call.size.above) call.index call.entry call.virt short small
    rw [← run_eq call misaligned] at tables' apart flush
    rw [← flush_eq call misaligned] at flush
    refine ⟨tables', flush.imp_right fun ⟨address, accepted⟩ => ⟨address, ?_, fun v other => ?_⟩⟩
    · exact fun refused => refused.elim misaligned accepted
    · exact apart v (mt (touches_iff v).mp other)

end Call

end VmmCall

/-! ## Runs with a buffer -/

structure TlbSystem (σ : Type*) where
  s : σ
  tlb : List TlbEntry := []

inductive TlbLabel where
  | access (virt : ℕ)
  | call (call : VmmCall)

section Runs

variable {σ : Type*} (pmm : PageAllocator σ) (pml4 : ℕ)

/-- The buffer after an optional `invlpg`. -/
def flushed (tlb : List TlbEntry) : Option ℕ → List TlbEntry
  | none => tlb
  | some virt => invlpg tlb virt

/-- A walk for an access adds its translation; a call changes the tables and invalidates. -/
inductive TlbStep : TlbSystem σ → TlbLabel → TlbSystem σ → Prop
  | access (t : TlbSystem σ) (virt : ℕ) : Canonical virt →
      TlbStep t (.access virt) { t with tlb := tlbFill (pmm.mem t.s) pml4 virt ++ t.tlb }
  | call (t : TlbSystem σ) (call : VmmCall) :
      TlbStep t (.call call) ⟨call.run pmm pml4 t.s, flushed t.tlb (call.flush pmm pml4 t.s)⟩

/-- A step in which a call replaces one page at most. -/
def OnePageStep (t : TlbSystem σ) (label : TlbLabel) (u : TlbSystem σ) : Prop :=
  TlbStep pmm pml4 t label u ∧ ∀ call, label = .call call → call.ReplacesOnePage pmm pml4 t.s

/-- Every cached translation is the one that the tables give. -/
def Coherent (t : TlbSystem σ) : Prop :=
  ∀ e ∈ t.tlb, ∀ virt, e.Covers virt → walk (pmm.mem t.s) pml4 virt = .ok (e.leaf virt)

variable {pmm pml4} {Ready : σ → Set ℕ → Prop} {pdpt pd : ℕ} {s₀ : σ} {t u : TlbSystem σ}

/-- Such a step keeps every cached translation good. -/
private theorem onePageStep_cached (fresh : FreshPages pmm Ready) {label : TlbLabel}
    (step : OnePageStep pmm pml4 t label u)
    (inv : (∃ used, VmmTree pmm Ready pml4 t.s used) ∧ ∀ e ∈ t.tlb, Cached (pmm.mem t.s) pml4 e) :
    (∃ used, VmmTree pmm Ready pml4 u.s used) ∧ ∀ e ∈ u.tlb, Cached (pmm.mem u.s) pml4 e := by
  obtain ⟨⟨used, tables⟩, cached⟩ := inv
  obtain ⟨step, one⟩ := step
  cases step with
  | access virt canonical =>
    refine ⟨⟨used, tables⟩, fun e member => ?_⟩
    rcases List.mem_append.mp member with new | old
    · exact tlbFill_cached canonical e new
    · exact cached e old
  | call call =>
    obtain ⟨tables', same | ⟨address, accepted, apart⟩⟩ := call.flush_spec fresh tables
    · refine ⟨tables', fun e member => ?_⟩
      simp only [same.1, flushed] at member
      exact (cached e member).congr fun v _ => same.2 v
    · refine ⟨tables', fun e member => ?_⟩
      simp only [address, flushed, invlpg] at member
      obtain ⟨member, kept⟩ := List.mem_filter.mp member
      have good := cached e member
      refine good.congr fun v covers => apart v fun touches => of_decide_eq_true kept ?_
      -- the only page that the entry mapped was invalidated
      obtain ⟨canonical, mapped, shift⟩ := good.walk covers
      have same := (one call rfl).resolve_left accepted v _ canonical touches mapped
      rw [shift] at same
      exact same.symm.trans covers

/-- In every run from the boot page tables in which no call replaces an entry that maps another page
than its own, the cached translations are right in every state. -/
theorem tlb_coherent (fresh : FreshPages pmm Ready) (boot : VmmBoot pmm Ready pml4 pdpt pd s₀)
    {labels : List TlbLabel} (run : Path (OnePageStep pmm pml4) { s := s₀ } labels t) :
    Coherent pmm pml4 t := by
  have inv := run.invariant
    (fun t => (∃ used, VmmTree pmm Ready pml4 t.s used) ∧ ∀ e ∈ t.tlb, Cached (pmm.mem t.s) pml4 e)
    ⟨⟨_, boot.tree⟩, fun e member => absurd member List.not_mem_nil⟩
    fun t label u inv step => onePageStep_cached fresh step inv
  exact fun e member virt covers => ((inv.2 e member).walk covers).2.1

end Runs

/-- A page of the boot tables is mapped elsewhere. -/
theorem tlb_coherent_sample :
    ∃ s t, PmmAccepts { mem := sampleTables } sampleInfo 0x14F000 0x200000 s ∧
      Path (OnePageStep pmmAllocator 0x110000) { s := s }
        [.access 0x200000, .call ⟨.huge2mb, 0x200000, 0x600000, 2⟩] t ∧
      Coherent pmmAllocator 0x110000 t := by
  obtain ⟨s, accepts⟩ := sampleTables_accepts
  obtain ⟨clear, boot⟩ := sample_vmmBoot accepts
  have one : VmmCall.ReplacesOnePage pmmAllocator 0x110000 s ⟨.huge2mb, 0x200000, 0x600000, 2⟩ := by
    apply Or.inr
    intro virt leaf canonical touches _
    have page : virt / 2 ^ 21 = 1 := by
      simp only [VmmCall.Touches, MapSize.shift] at touches
      unfold Canonical at canonical
      omega
    rw [walkShift_of_leaf (boot_leafEntry boot.symbols boot.contents (by omega)) (by decide)]
    exact page
  have run : Path (OnePageStep pmmAllocator 0x110000) { s := s }
      [.access 0x200000, .call ⟨.huge2mb, 0x200000, 0x600000, 2⟩] _ :=
    .cons ⟨.access _ _ (by decide), fun call same => by cases same⟩ (.cons ⟨.call _ _, fun call same => by
      cases same
      exact one⟩ (.nil _))
  exact ⟨s, _, accepts, run, tlb_coherent (pmm_freshPages clear) boot run⟩

section Stale

variable {σ : Type*} {pmm : PageAllocator σ} {pml4 : ℕ} {t : TlbSystem σ}

/-- Any other call leaves a wrong translation behind, if the address of another page was accessed and
is translated otherwise after the call. -/
theorem tlb_stale {call : VmmCall} {virt : ℕ} {leaf : Leaf} (canonical : Canonical virt)
    (mapped : walk (pmm.mem t.s) pml4 virt = .ok leaf)
    (other : virt / 2 ^ walkShift (pmm.mem t.s) pml4 virt ≠
      call.virt / 2 ^ walkShift (pmm.mem t.s) pml4 virt)
    (address : call.flush pmm pml4 t.s = some call.virt)
    (changed : walk (pmm.mem (call.run pmm pml4 t.s)) pml4 virt ≠ .ok leaf) :
    ∃ u, Path (TlbStep pmm pml4) t [.access virt, .call call] u ∧ ¬Coherent pmm pml4 u := by
  refine ⟨_, .cons (.access t virt canonical) (.cons (.call _ call) (.nil _)), fun coherent => ?_⟩
  obtain ⟨e, member, shift, covers⟩ := tlbFill_covers mapped
  obtain ⟨_, walked, _⟩ := (tlbFill_cached canonical e member).walk covers
  refine changed ((coherent e ?_ virt covers).trans (walked.symm.trans mapped))
  simp only [address, flushed, invlpg]
  refine List.mem_filter.mpr ⟨List.mem_append_left _ member, decide_eq_true fun own => other ?_⟩
  rw [← shift]
  exact covers.trans own.symm

end Stale

/-- A 1 GiB page takes the place of a page directory, and the translation of its second 2 MiB page
stays. -/
theorem tlb_coherent_fails :
    ∃ s t, PmmAccepts { mem := sampleTables } sampleInfo 0x14F000 0x200000 s ∧
      Path (TlbStep pmmAllocator 0x110000) { s := s }
        [.access 0x40200000, .call ⟨.huge1gb, 0x40000000, 0x80000000, 2⟩] t ∧
      ¬Coherent pmmAllocator 0x110000 t := by
  obtain ⟨s, accepts⟩ := sampleTables_accepts
  obtain ⟨clear, boot⟩ := sample_vmmBoot accepts
  have fresh := pmm_freshPages clear
  have inPml4 := boot_inPml4 boot.symbols boot.contents 0
  obtain ⟨present, ps, _⟩ := entryChild_eq_some.mp (inPml4.trans (if_pos rfl))
  have accepted : ¬VmmCall.Refused pmmAllocator 0x110000 s ⟨.huge1gb, 0x40000000, 0x80000000, 2⟩ := by
    rintro (misaligned | ⟨_, huge | below⟩ | ⟨absent, _⟩ | ⟨_, missing⟩)
    · exact absurd misaligned.2 (by decide)
    · exact absurd (ps.symm.trans huge) (by decide)
    · exact below
    · exact absurd (present.symm.trans absent) (by decide)
    · exact missing
  have effect : VmmCall.Effect pmmAllocator 0x110000 s ⟨.huge1gb, 0x40000000, 0x80000000, 2⟩ :=
    (VmmCall.effect fresh boot.tree ⟨by decide, by decide, ⟨by decide, by decide, by decide⟩⟩).2
  have after := effect.mapped accepted 0x40200000 (by decide) (by decide)
  have leaf := boot_leafEntry boot.symbols boot.contents (show 0x40200000 < 2 ^ 32 by decide)
  have changed : walk (pmmAllocator.mem (VmmCall.run pmmAllocator 0x110000 s
      ⟨.huge1gb, 0x40000000, 0x80000000, 2⟩)) 0x110000 0x40200000 ≠
        walk (pmmAllocator.mem s) 0x110000 0x40200000 := by
    rw [after, walk_eq_ok leaf (by decide)]
    intro same
    exact absurd (congrArg Leaf.phys (Except.ok.inj same)) (by decide)
  have address : VmmCall.flush pmmAllocator 0x110000 s ⟨.huge1gb, 0x40000000, 0x80000000, 2⟩ =
      some 0x40000000 := by
    obtain ⟨_, same | flushed⟩ := VmmCall.flush_spec fresh boot.tree ⟨.huge1gb, 0x40000000, 0x80000000, 2⟩
    · exact absurd (walk_of_leaf (same.2 0x40200000)) changed
    · exact flushed.1
  rw [walk_eq_ok leaf (by decide)] at changed
  obtain ⟨t, run, stale⟩ := tlb_stale (t := ⟨s, []⟩) (by decide) (walk_eq_ok leaf (by decide))
    (by rw [walkShift_of_leaf leaf (by decide)]; decide) address changed
  exact ⟨s, t, accepts, run, stale⟩

end RaryOS.Soundness
