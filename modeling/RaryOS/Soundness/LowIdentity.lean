import RaryOS.Soundness.VmmRuns

/-! # The identity map below 4 GiB

The kernel uses physical addresses below 4 GiB as pointers. `vmm_map_page` writes links of new tables
where nothing was present, and its own entry in a table of the lowest level, while the boot tables map
everything below 4 GiB one level above with entries that are all present. So no call of it comes across
an entry of the identity map.
-/

namespace RaryOS.Soundness

open RaryOS.Core RaryOS.Model

section Low

variable {σ : Type*} {pmm : PageAllocator σ} {Ready : σ → Set ℕ → Prop} {pml4 pdpt pd : ℕ} {s₀ s : σ}
  {used : Set ℕ}

/-- The walk of an address below 4 GiB reads what it reads in the boot tables. -/
def LowTrails (m₀ m : Memory) (pml4 : ℕ) : Prop :=
  ∀ virt < 2 ^ 32, trail entryChild (tableEntries m) pml4 (pathOf virt) =
    trail entryChild (tableEntries m₀) pml4 (pathOf virt)

/-- A walk of three present entries does not come to an entry that is absent or of the lowest level. -/
theorem LowTrails.write {m₀ m m' : Memory} {p : List (Fin 512)} {t entry : ℕ} {i : Fin 512}
    (boot : BootSymbols pml4 pdpt pd) (contents : BootEntries m₀ pml4 pdpt pd)
    (tree : TableTree entryChild (tableEntries m) pml4 3) (write : EntryWrite m m' pml4 p t i entry)
    (unread : entryPresent (tableEntries m t i) = false ∨ p.length = 3) (kept : LowTrails m₀ m pml4) :
    LowTrails m₀ m' pml4 := by
  intro virt low
  rw [write.trail_apart tree (le_refl 4), kept virt low]
  rintro ⟨rest, through⟩
  obtain ⟨count, present⟩ := boot_trail boot contents low
  rw [← kept virt low, ← through, List.append_assoc, trail_append write.reach, List.singleton_append] at count present
  rcases unread with absent | deep
  · have here := present (tableEntries m t i) (List.mem_append_right _ List.mem_cons_self)
    rw [absent] at here
    cases here
  · have whole := trail_length write.reach
    rw [List.length_append, whole, deep, trail, List.length_cons] at count
    omega

/-- A call of `vmm_map_page` leaves them alone. -/
theorem LowTrails.map_page (fresh : FreshPages pmm Ready) (boot : BootSymbols pml4 pdpt pd) {m₀ : Memory}
    (contents : BootEntries m₀ pml4 pdpt pd) {call : VmmCall} (page : call.size = .page)
    (tables : VmmTree pmm Ready pml4 s used) (kept : LowTrails m₀ (pmm.mem s) pml4) :
    ∃ used', VmmTree pmm Ready pml4 (call.run pmm pml4 s) used' ∧
      LowTrails m₀ (pmm.mem (call.run pmm pml4 s)) pml4 := by
  refine call.run_invariant fresh (fun s _ => LowTrails m₀ (pmm.mem s) pml4) ?_ ?_ ?_ tables kept
  · intro s used tables kept _ virt low
    rw [← kept virt low]
    refine trail_of_agree (fun u j reached => ?_) (le_refl 4)
    exact tableEntries_congr (fresh.keeps s used tables.ready u (tables.reached u reached)) j
  · intro s used p i t s' _ linked kept
    exact kept.write boot contents linked.tables.tree linked.write (Or.inl linked.absent)
  · intro s used t s' written kept
    apply kept.write boot contents written.tables.tree written.write (Or.inr _)
    rw [call.tablePath_length, page]
    rfl

/-- After any run of `vmm_map_page` from the boot tables, whatever its arguments, an address below
4 GiB is mapped to itself with the attributes of `boot_main`, at every level of its walk. -/
theorem low_identity (fresh : FreshPages pmm Ready) (boot : VmmBoot pmm Ready pml4 pdpt pd s₀)
    {calls : List VmmCall} (run : Path (VmmCallStep pmm pml4) s₀ calls s)
    (pages : ∀ call ∈ calls, call.size = .page) {virt : ℕ} (low : virt < 2 ^ 32) :
    walk (pmm.mem s) pml4 virt = .ok ⟨virt, bootFlags (virt / 0x200000 * 0x200000)⟩ ∧
      walkEntries (pmm.mem s) pml4 virt = walkEntries (pmm.mem s₀) pml4 virt := by
  obtain ⟨used, _, kept⟩ := run.invariant_of_labels
    (fun s => ∃ used, VmmTree pmm Ready pml4 s used ∧ LowTrails (pmm.mem s₀) (pmm.mem s) pml4) pages
    ⟨_, boot.tree, fun _ _ => rfl⟩ fun s call t page ⟨_, tables, kept⟩ step => by
      cases step
      exact kept.map_page fresh boot.symbols boot.contents page tables
  have entries : walkEntries (pmm.mem s) pml4 virt = walkEntries (pmm.mem s₀) pml4 virt := by
    rw [walkEntries_eq_trail, walkEntries_eq_trail, kept virt low]
  refine ⟨?_, entries⟩
  rw [walk_eq_leaf, leafEntry_of_trail (kept virt low), boot_leafEntry boot.symbols boot.contents low,
    boot_resolve low]

end Low

/-- On the sample machine, after a page above 512 GiB with all flag bits set, and a page below 4 GiB that
the boot tables already map. -/
theorem low_identity_sample :
    ∃ t s, PmmAccepts { mem := sampleTables } sampleInfo 0x14F000 0x200000 t ∧
      Path (VmmCallStep pmmAllocator 0x110000) t
        [⟨.page, 0x8000000000, 0x5000, 0xFFFFFFFFFFFFFFFF⟩, ⟨.page, 0x40001000, 0, 0⟩] s ∧
      walk s.mem 0x110000 0x40001234 = .ok ⟨0x40001234, 0x83⟩ ∧
      walkEntries s.mem 0x110000 0x40001234 = walkEntries t.mem 0x110000 0x40001234 := by
  obtain ⟨t, accepts⟩ := sampleTables_accepts
  obtain ⟨clear, boot⟩ := sample_vmmBoot accepts
  have run : Path (VmmCallStep pmmAllocator 0x110000) t
      [⟨.page, 0x8000000000, 0x5000, 0xFFFFFFFFFFFFFFFF⟩, ⟨.page, 0x40001000, 0, 0⟩] _ :=
    .cons rfl (.cons rfl (.nil _))
  have pages : ∀ call ∈ ([⟨.page, 0x8000000000, 0x5000, 0xFFFFFFFFFFFFFFFF⟩,
      ⟨.page, 0x40001000, 0, 0⟩] : List VmmCall), call.size = .page := by decide
  exact ⟨t, _, accepts, run, low_identity (pmm_freshPages clear) boot run pages (by decide)⟩

end RaryOS.Soundness
