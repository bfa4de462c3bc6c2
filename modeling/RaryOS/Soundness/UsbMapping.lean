import RaryOS.Model.Usb
import RaryOS.Proofs.TableStock
import RaryOS.Soundness.TableFrames

/-! # The register pages of the USB controller

`usb_init` maps 256 pages at the BAR to themselves, uncached. Below 4 GiB the boot tables already map
large pages, and `vmm_map_page` leaves them as they are, so the pages are uncached there only if the boot
code made them so, which it did from 3 GiB on. From 4 GiB on the pages are mapped as asked, with tables
from the page allocator.
-/

namespace RaryOS.Soundness

open RaryOS.Core RaryOS.Model

/-- The paths of the tables that the mapping loop goes through. -/
def usbTables (physPageStart : ℕ) : Finset (List (Fin 512)) :=
  ((List.range 256).flatMap fun i =>
    (List.range 3).map fun k => (pathOf (usbPage physPageStart i)).take (k + 1)).toFinset

theorem mem_usbTables {physPageStart : ℕ} {path : List (Fin 512)} :
    path ∈ usbTables physPageStart ↔
      ∃ i < 256, ∃ k < 3, (pathOf (usbPage physPageStart i)).take (k + 1) = path := by
  simp only [usbTables, List.mem_toFinset, List.mem_flatMap, List.mem_map, List.mem_range]

theorem usbTables_length {physPageStart : ℕ} :
    ∀ path ∈ usbTables physPageStart, path.length ≤ 3 := by
  intro path member
  obtain ⟨i, _, k, bound, rfl⟩ := mem_usbTables.mp member
  rw [List.length_take]
  omega

theorem usbTables_covers {physPageStart i : ℕ} (bound : i < 256) {path : List (Fin 512)}
    (nonempty : path ≠ []) (inside : path <+: (pathOf (usbPage physPageStart i)).take 3) :
    path ∈ usbTables physPageStart := by
  have positive := List.length_pos_of_ne_nil nonempty
  have short := inside.length_le
  rw [List.length_take] at short
  rw [List.prefix_iff_eq_take, List.take_take] at inside
  refine mem_usbTables.mpr ⟨i, bound, path.length - 1, by omega, ?_⟩
  rw [Nat.sub_add_cancel positive]
  rw [Nat.min_eq_left (by omega)] at inside
  exact inside.symm

section Mapping

variable {σ : Type*} {pmm : PageAllocator σ} {Ready : σ → Set ℕ → Prop} {stock : σ → ℕ} {Low : ℕ → Prop}
  {pml4 pdpt pd : ℕ} {s : σ} {used : Set ℕ}

/-- A mapping of a 4 KiB page along paths with enough frames does not run out of tables, and leaves
enough for the others. -/
theorem vmmMapAt_enough (fresh : FreshPages pmm Ready) (stocked : Stocked pmm Ready stock Low)
    {paths : Finset (List (Fin 512))} (bounded : ∀ path ∈ paths, path.length ≤ 3)
    (tables : VmmTree pmm Ready pml4 s used) {path : List (Fin 512)} (i : Fin 512) {entry : ℕ}
    (length : path.length = 3) (small : entry < 2 ^ 64) (present : entryPresent entry = true)
    (covers : ∀ q, q ≠ [] → q <+: path → q ∈ paths) (enough : Enough pmm stock pml4 paths s) :
    ¬OutOfTables pmm s pml4 path ∧ Enough pmm stock pml4 paths (vmmMapAt pmm pml4 s path i entry) ∧
      ∀ w, Reached entryChild (tableEntries (pmm.mem (vmmMapAt pmm pml4 s path i entry))) pml4 3 w →
        Reached entryChild (tableEntries (pmm.mem s)) pml4 3 w ∨ Low w := by
  have short : ([] : List (Fin 512)).length + path.length ≤ 3 := by
    rw [length]
    decide
  obtain ⟨used', grows, outcome⟩ := vmmDescend_spec fresh tables short rfl
  obtain ⟨supplied, enough', reached'⟩ := vmmDescend_enough fresh stocked
    (fun path member => Nat.le_succ_of_le (bounded path member)) tables short rfl covers enough
  rcases outcome with ⟨null, _⟩ | ⟨nonzero, _, reach⟩
  · rw [vmmMapAt_of_null null]
    exact ⟨supplied, enough', reached'⟩
  · rw [List.nil_append] at reach
    have member := (grows.tables.isPage (by omega) reach).1
    obtain ⟨_, _, _, old, missing⟩ := grows.tables.write_leaf fresh i (by omega) reach small present
      (fun above => by omega)
    rw [vmmMapAt_of_found nonzero]
    refine ⟨supplied, ?_, fun w reached => ?_⟩
    · have same : missingTables (setTableEntry (pmm.mem (vmmDescend pmm s pml4 path).2)
          (vmmDescend pmm s pml4 path).1 i entry) pml4 paths =
          missingTables (pmm.mem (vmmDescend pmm s pml4 path).2) pml4 paths := by
        apply Finset.filter_congr
        intro other inside
        have below := bounded other inside
        rw [missing other (by omega) fun longer => by
          have := longer.length_le
          rw [List.length_append, List.length_singleton] at this
          omega]
      rw [Enough, pmm.mem_withMem, same,
        stocked.write _ _ _ grows.tables.ready fun query away => setTableEntry_apply _ _ _ (away _ member)]
      exact enough'
    · rw [pmm.mem_withMem] at reached
      exact reached' w (old w reached)

/-- A page that is mapped: its entry is the new one, and no other page's entry changes. -/
theorem vmmMapPage_leafEntry (fresh : FreshPages pmm Ready) (tables : VmmTree pmm Ready pml4 s used)
    {addr flags : ℕ} (allowed : VmmCall.Allowed ⟨.page, addr, addr, flags⟩)
    (notHuge : ¬HugeAbove (pmm.mem s) pml4 ((pathOf addr).take 3))
    (supplied : ¬OutOfTables pmm s pml4 ((pathOf addr).take 3)) {virt : ℕ} (bound : virt < 2 ^ 48) :
    leafEntry (pmm.mem (vmmMapPage pmm pml4 s addr addr flags)) pml4 virt =
      if virt / 2 ^ 12 = addr / 2 ^ 12 then some ((VmmCall.mk .page addr addr flags).entry, 0)
      else leafEntry (pmm.mem s) pml4 virt := by
  obtain ⟨fields, small⟩ := VmmCall.entry_fields allowed
  have steps : vmmMapPage pmm pml4 s addr addr flags = vmmMapAt pmm pml4 s ((pathOf addr).take 3)
      (Fin.ofNat 512 (addr / 2 ^ 12)) (VmmCall.mk .page addr addr flags).entry :=
    vmmMapPage_eq s addr addr flags
  have three : ((pathOf addr).take 3).length = 3 := rfl
  obtain ⟨_, others, _, here⟩ := vmmMapAt_spec fresh tables (Fin.ofNat 512 (addr / 2 ^ 12))
    (Nat.le_of_eq three) small fields.present fun above => absurd above (by rw [three]; exact lt_irrefl 3)
  have path : (pathOf addr).take 3 ++ [Fin.ofNat 512 (addr / 2 ^ 12)] = pathOf addr := rfl
  rw [steps]
  split
  · next same =>
    have samePath : pathOf virt = pathOf addr := by
      simp only [pathOf, List.cons.injEq, ofNat_eq_iff, and_true]
      omega
    exact here (fun refused => refused.elim notHuge supplied) virt [] (samePath.trans path.symm)
  · next other =>
    apply others virt
    rw [path, (take_prefix_iff allowed.virt bound).2.2]
    exact fun same => other same.symm

/-- The state after `count` rounds of the mapping loop: below 4 GiB everything is mapped as the boot
code left it, there is no large page above, the pages of the rounds so far that lie there are mapped,
and all tables are of the right kind. -/
structure UsbMapped (pmm : PageAllocator σ) (Ready : σ → Set ℕ → Prop) (stock : σ → ℕ) (Low : ℕ → Prop)
    (pml4 physPageStart : ℕ) (s : σ) (count : ℕ) : Prop where
  tables : ∃ used, VmmTree pmm Ready pml4 s used
  enough : Enough pmm stock pml4 (usbTables physPageStart) s
  below : ∀ virt < 2 ^ 32,
    leafEntry (pmm.mem s) pml4 virt = some (bootPdEntry (virt / 0x200000 * 0x200000), 1)
  above : ∀ virt, 2 ^ 32 ≤ virt → virt < 2 ^ 48 →
    ¬HugeAbove (pmm.mem s) pml4 ((pathOf virt).take 3)
  done : ∀ i < count, 2 ^ 32 ≤ usbPage physPageStart i →
    walk (pmm.mem s) pml4 (usbPage physPageStart i) = .ok ⟨usbPage physPageStart i, usbPageFlags⟩
  reached : ∀ w, Reached entryChild (tableEntries (pmm.mem s)) pml4 3 w → Low w

theorem UsbMapped.start (boot : VmmBoot pmm Ready pml4 pdpt pd s) {physPageStart : ℕ}
    (low : ∀ w ∈ bootPages pml4 pdpt pd, Low w) (enough : Enough pmm stock pml4 (usbTables physPageStart) s) :
    UsbMapped pmm Ready stock Low pml4 physPageStart s 0 where
  tables := ⟨_, boot.tree⟩
  enough := enough
  below _ small := boot_leafEntry boot.symbols boot.contents small
  above virt high bound huge := by
    obtain ⟨entry, below, found⟩ := (hugeAbove_iff_leafEntry _ _ _).mp huge
    rw [boot_leafEntry_high boot.symbols boot.contents high bound] at found
    cases found
  done i bound := absurd bound (Nat.not_lt_zero i)
  reached w reached := low w (boot_reached boot.symbols boot.contents reached)

/-- A page below 4 GiB lies in a large page, which stays. -/
theorem UsbMapped.step_below {physPageStart count : ℕ}
    (mapped : UsbMapped pmm Ready stock Low pml4 physPageStart s count)
    (low : usbPage physPageStart count < 2 ^ 32) :
    UsbMapped pmm Ready stock Low pml4 physPageStart
      (vmmMapPage pmm pml4 s (usbPage physPageStart count) (usbPage physPageStart count) usbPageFlags)
      (count + 1) := by
  have huge := (hugeAbove_iff_leafEntry _ _ _).mpr ⟨_, _, mapped.below _ low⟩
  have stays : vmmMapPage pmm pml4 s (usbPage physPageStart count) (usbPage physPageStart count)
      usbPageFlags = s := by
    rw [vmmMapPage_eq, vmmMapAt, vmmDescend_of_hugeAbove huge, if_pos rfl]
  rw [stays]
  refine { mapped with done := fun i small high => ?_ }
  by_cases last : i = count
  · subst last
    exact absurd high (Nat.not_le_of_lt low)
  · exact mapped.done i (by omega) high

/-- A page from 4 GiB on is mapped. -/
theorem UsbMapped.step_above (fresh : FreshPages pmm Ready) (stocked : Stocked pmm Ready stock Low)
    {physPageStart count : ℕ} (aligned : physPageStart % 4096 = 0) (bound : physPageStart < 2 ^ 47 - 2 ^ 20)
    (rounds : count < 256) (mapped : UsbMapped pmm Ready stock Low pml4 physPageStart s count)
    (high : 2 ^ 32 ≤ usbPage physPageStart count) :
    UsbMapped pmm Ready stock Low pml4 physPageStart
      (vmmMapPage pmm pml4 s (usbPage physPageStart count) (usbPage physPageStart count) usbPageFlags)
      (count + 1) := by
  obtain ⟨used, tables⟩ := mapped.tables
  have page (i : ℕ) (small : i < 256) : usbPage physPageStart i = physPageStart + i * 4096 :=
    Nat.mod_eq_of_lt (by omega)
  have covers : ∀ q, q ≠ [] → q <+: (pathOf (usbPage physPageStart count)).take 3 →
      q ∈ usbTables physPageStart := fun q nonempty inside => usbTables_covers rounds nonempty inside
  have value := page count rounds
  generalize usbPage physPageStart count = addr at value high covers
  have plain : PlainFlags usbPageFlags := ⟨by decide, by decide, by decide⟩
  have allowed : VmmCall.Allowed ⟨.page, addr, addr, usbPageFlags⟩ :=
    ⟨by simp only; omega, by simp only; omega, plain⟩
  obtain ⟨fields, small⟩ := VmmCall.entry_fields allowed
  have notHuge := mapped.above addr high (by omega)
  obtain ⟨supplied, enough, reached⟩ := vmmMapAt_enough fresh stocked usbTables_length tables
    (Fin.ofNat 512 (addr / 2 ^ 12)) rfl small fields.present covers mapped.enough
  have steps : vmmMapPage pmm pml4 s addr addr usbPageFlags = vmmMapAt pmm pml4 s ((pathOf addr).take 3)
      (Fin.ofNat 512 (addr / 2 ^ 12)) (VmmCall.mk .page addr addr usbPageFlags).entry :=
    vmmMapPage_eq s addr addr usbPageFlags
  rw [← steps] at enough reached
  have leaf {virt : ℕ} (bounded : virt < 2 ^ 48) :=
    vmmMapPage_leafEntry fresh tables allowed notHuge supplied bounded
  obtain ⟨tables', effect⟩ := VmmCall.effect fresh tables allowed
  refine ⟨tables', enough, fun virt low => ?_, fun virt beyond bounded huge => ?_, fun i inside beyond => ?_,
    fun w leads => (reached w leads).elim (mapped.reached w) id⟩
  · rw [leaf (by omega), if_neg (by omega)]
    exact mapped.below virt low
  · obtain ⟨entry, below, found⟩ := (hugeAbove_iff_leafEntry _ _ _).mp huge
    rw [leaf bounded] at found
    split at found
    · cases found
    · exact mapped.above virt beyond bounded ((hugeAbove_iff_leafEntry _ _ _).mpr ⟨_, _, found⟩)
  · by_cases last : i = count
    · subst last
      have accepted : ¬VmmCall.Refused pmm pml4 s ⟨.page, addr, addr, usbPageFlags⟩ := by
        rintro (misaligned | huge | out)
        · exact misaligned.1 rfl
        · exact notHuge huge
        · exact supplied out
      rw [page i rounds, ← value]
      apply (effect.mapped accepted addr allowed.virt rfl).trans
      have whole : addr / 4096 * 4096 + addr % 2 ^ 12 = addr := by omega
      have flags : usbPageFlags ||| MapSize.bits .page = usbPageFlags := by decide
      simp only [MapSize.shift, whole, flags]
    · have before := page i (by omega)
      rw [← mapped.done i (by omega) beyond]
      apply walk_of_leaf
      rw [leaf (by omega), if_neg (by omega)]

/-- All rounds. -/
theorem usbMapPages_mapped (fresh : FreshPages pmm Ready) (stocked : Stocked pmm Ready stock Low)
    {physPageStart : ℕ} (aligned : physPageStart % 4096 = 0) (bound : physPageStart < 2 ^ 47 - 2 ^ 20)
    (start : UsbMapped pmm Ready stock Low pml4 physPageStart s 0) {count : ℕ} (rounds : count ≤ 256) :
    UsbMapped pmm Ready stock Low pml4 physPageStart (usbMapPages pmm pml4 s physPageStart count) count := by
  induction count with
  | zero => exact start
  | succ count ih =>
    have mapped := ih (by omega)
    by_cases low : usbPage physPageStart count < 2 ^ 32
    · exact mapped.step_below low
    · exact mapped.step_above fresh stocked aligned bound rounds (Nat.le_of_not_lt low)

end Mapping

/-! ## The whole call -/

/-- A page translated to itself, with `PRESENT`, `WRITABLE` and `CACHE_DISABLE` set. -/
def RegisterPage (m : Memory) (pml4 virt : ℕ) : Prop :=
  ∃ flags, walk m pml4 virt = .ok ⟨virt, flags⟩ ∧ flags &&& usbPageFlags = usbPageFlags

/-- `~0xFFF` takes the offset in the page away. -/
theorem and_not_pageOffset {address : ℕ} (small : address < 2 ^ 64) :
    address &&& (2 ^ 64 - 1 - 0xFFF) = address / 4096 * 4096 := by
  have low : (address &&& (2 ^ 64 - 1 - 0xFFF)) % 2 ^ 12 = 0 := by
    rw [Nat.and_mod_two_pow, show (2 ^ 64 - 1 - 0xFFF) % 2 ^ 12 = 0 by decide, Nat.and_zero]
  have high : (address &&& (2 ^ 64 - 1 - 0xFFF)) / 2 ^ 12 = address / 4096 := by
    rw [Nat.and_div_two_pow, show (2 ^ 64 - 1 - 0xFFF) / 2 ^ 12 = 2 ^ 52 - 1 by decide,
      Nat.and_two_pow_sub_one_eq_mod]
    omega
  omega

/-- An accepted BAR: the loop runs over the pages from the BAR's page on. -/
theorem usbInit_accepted {σ : Type*} {pmm : PageAllocator σ} {pml4 bar : ℕ} {s : σ} {pciRead32 : ℕ → ℕ}
    (read : pciReadBar64 pciRead32 0x10 = (bar, false)) (nonzero : bar ≠ 0) (small : bar < 2 ^ 64) :
    ∃ address, usbInit pmm pml4 s (some pciRead32) =
      some (usbMapPages pmm pml4 s (bar / 4096 * 4096) 256, address) := by
  refine ⟨bar / 4096 * 4096 + (bar &&& 0xFFF), ?_⟩
  simp only [usbInit, read, nonzero, Bool.false_eq_true, or_self, if_false, and_not_pageOffset small]

/-- What the boot code made of the page at `virt`. -/
theorem registerPage_of_below {m : Memory} {pml4 virt : ℕ} (low : virt < 2 ^ 32)
    (mapped : leafEntry m pml4 virt = some (bootPdEntry (virt / 0x200000 * 0x200000), 1)) :
    RegisterPage m pml4 virt ↔ 0xC0000000 ≤ virt := by
  have leaf : walk m pml4 virt = .ok ⟨virt, bootFlags (virt / 0x200000 * 0x200000)⟩ := by
    rw [walk_eq_leaf, mapped, boot_resolve low]
  have cached : (0x83 &&& usbPageFlags ≠ usbPageFlags) ∧ 0x87 &&& usbPageFlags ≠ usbPageFlags := by decide
  have uncached : 0x93 &&& usbPageFlags = usbPageFlags := by decide
  rw [RegisterPage, leaf]
  constructor
  · rintro ⟨flags, same, set⟩
    obtain rfl := congrArg Leaf.flags (Except.ok.inj same)
    simp only [bootFlags] at set
    split_ifs at set with high middle
    · omega
    · exact absurd set cached.1
    · exact absurd set cached.2
  · intro high
    refine ⟨_, rfl, ?_⟩
    rw [bootFlags, if_pos (by omega)]
    exact uncached

section Registers

variable {init s : PmmState} {pml4 pdpt pd bar : ℕ} {pciRead32 : ℕ → ℕ}

/-- The mapping loop of `usb_init` with the allocator of `pmm.c`. -/
theorem usb_mapped (clear : PmmClear init)
    (boot : VmmBoot pmmAllocator (PmmLowest init) pml4 pdpt pd s) (bound : bar < 2 ^ 47 - 2 ^ 20)
    (enough : Enough pmmAllocator (fun s => (lowFreeFrames s).card) pml4 (usbTables (bar / 4096 * 4096)) s) :
    UsbMapped pmmAllocator (PmmLowest init) (fun s => (lowFreeFrames s).card)
      (fun page => page + pageSize ≤ bootMapped) pml4 (bar / 4096 * 4096)
      (usbMapPages pmmAllocator pml4 s (bar / 4096 * 4096) 256) 256 := by
  have low : ∀ page ∈ bootPages pml4 pdpt pd, page + pageSize ≤ bootMapped := by
    obtain ⟨⟨_, first⟩, ⟨_, second⟩, ⟨_, third⟩, _⟩ := boot.symbols
    intro page member
    have aligned := (isPage_of_mem boot.symbols member).aligned
    simp only [pageSize, bootMapped]
    rcases member with rfl | rfl | ⟨k, small, rfl⟩ <;> omega
  exact usbMapPages_mapped (pmm_freshPages_lowest clear) (pmm_stocked init) (by omega) (by omega)
    (.start boot low enough) (le_refl 256)

/-- From the boot tables on, with enough free frames below 4 GiB for the tables that are missing, all 256
register pages of an accepted BAR end up mapped to themselves and uncached exactly when the BAR is not
below 3 GiB. -/
theorem usb_registers_uncached_iff (clear : PmmClear init)
    (boot : VmmBoot pmmAllocator (PmmLowest init) pml4 pdpt pd s)
    (read : pciReadBar64 pciRead32 0x10 = (bar, false)) (nonzero : bar ≠ 0) (bound : bar < 2 ^ 47 - 2 ^ 20)
    (enough : Enough pmmAllocator (fun s => (lowFreeFrames s).card) pml4 (usbTables (bar / 4096 * 4096)) s) :
    ∃ t address, usbInit pmmAllocator pml4 s (some pciRead32) = some (t, address) ∧
      ((∀ i < 256, RegisterPage t.mem pml4 (bar / 4096 * 4096 + i * 4096)) ↔ 0xC0000000 ≤ bar) := by
  obtain ⟨address, accepted⟩ := @usbInit_accepted _ pmmAllocator pml4 bar s pciRead32 read nonzero (by omega)
  have mapped := usb_mapped clear boot bound enough
  refine ⟨_, address, accepted, fun all => ?_, fun high i small => ?_⟩
  · have first := all 0 (by decide)
    rw [Nat.zero_mul, Nat.add_zero] at first
    by_cases low : bar / 4096 * 4096 < 2 ^ 32
    · have uncached := (registerPage_of_below low (mapped.below _ low)).mp first
      omega
    · omega
  · by_cases low : bar / 4096 * 4096 + i * 4096 < 2 ^ 32
    · exact (registerPage_of_below low (mapped.below _ low)).mpr (by omega)
    · have place : usbPage (bar / 4096 * 4096) i = bar / 4096 * 4096 + i * 4096 :=
        Nat.mod_eq_of_lt (by omega)
      have done := mapped.done i small (by omega)
      rw [place] at done
      exact ⟨usbPageFlags, done, Nat.and_self _⟩

/-- Every table of the result lies below 4 GiB, where the kernel reaches it. -/
theorem usb_tables_low (clear : PmmClear init)
    (boot : VmmBoot pmmAllocator (PmmLowest init) pml4 pdpt pd s) (bound : bar < 2 ^ 47 - 2 ^ 20)
    (enough : Enough pmmAllocator (fun s => (lowFreeFrames s).card) pml4 (usbTables (bar / 4096 * 4096)) s)
    {table : ℕ} (reached : Reached entryChild
      (tableEntries (usbMapPages pmmAllocator pml4 s (bar / 4096 * 4096) 256).mem) pml4 3 table) :
    table + pageSize ≤ bootMapped :=
  (usb_mapped clear boot bound enough).reached table reached

end Registers

/-! The sample machine with a BAR at 32 GiB, and with one at 2 GiB. -/

theorem take_pathOf_three (virt : ℕ) : (pathOf virt).take 3 =
    [Fin.ofNat 512 (virt / 2 ^ 21 / 2 ^ 18), Fin.ofNat 512 (virt / 2 ^ 21 / 2 ^ 9),
      Fin.ofNat 512 (virt / 2 ^ 21)] := by
  rw [Nat.div_div_eq_div_mul, Nat.div_div_eq_div_mul]
  rfl

/-- Pages in one 2 MiB range share their tables. -/
theorem usbTables_card {physPageStart : ℕ} (inside : physPageStart % 0x200000 + 2 ^ 20 ≤ 0x200000)
    (bound : physPageStart < 2 ^ 47) : (usbTables physPageStart).card ≤ 3 := by
  have sub : usbTables physPageStart ⊆
      ((List.range 3).map fun k => ((pathOf physPageStart).take 3).take (k + 1)).toFinset := by
    intro path member
    obtain ⟨i, small, k, less, rfl⟩ := mem_usbTables.mp member
    have same : usbPage physPageStart i / 2 ^ 21 = physPageStart / 2 ^ 21 := by
      rw [usbPage]
      omega
    rw [List.mem_toFinset, List.mem_map]
    refine ⟨k, List.mem_range.mpr less, ?_⟩
    rw [take_pathOf_three, ← same, ← take_pathOf_three, List.take_take, Nat.min_eq_left (by omega)]
  exact (Finset.card_le_card sub).trans (List.toFinset_card_le _)

theorem sample_lowFreeFrames {t : PmmState}
    (accepts : PmmAccepts { mem := sampleTables } sampleInfo 0x14F000 0x200000 t) :
    3 ≤ (lowFreeFrames t).card := by
  have boot : PmmBoot sampleTables sampleInfo 0x14F000 0x200000 [lowMemory, highMemory] :=
    pmmBoot_of_map sampleTables_map (by decide)
  obtain ⟨_, initialized⟩ := accepts.initialized (by decide) sampleTables_map
    fun query _ upper => Or.inl (Nat.lt_trans upper (by decide))
  have blocks : t.pmmMaxBlocks = 0x8000 := initialized.maxBlocks.trans (by decide)
  have size : t.pmmBitmapSize = 4096 := initialized.bitmapSize.trans (by decide)
  have sub : ({513, 514, 515} : Finset ℕ) ⊆ lowFreeFrames t := by
    intro f member
    have range : 513 ≤ f ∧ f ≤ 515 := by
      simp only [Finset.mem_insert, Finset.mem_singleton] at member
      omega
    have free : Free t f := by
      refine (boot.free_iff accepts f).mpr ⟨by omega, ⟨highMemory, by decide, rfl, ?_⟩, ?_⟩
      · simp only [PageInside, pageSize, highMemory]
        omega
      · simp only [pageMeets_iff, size, pageSize, sampleInfo, sizeofMultibootInfo]
        omega
    refine mem_lowFreeFrames.mpr ⟨by omega, free.2, ?_⟩
    simp only [pageSize, bootMapped]
    omega
  exact Finset.card_le_card sub

theorem sample_enough {t : PmmState}
    (accepts : PmmAccepts { mem := sampleTables } sampleInfo 0x14F000 0x200000 t) {physPageStart : ℕ}
    (inside : physPageStart % 0x200000 + 2 ^ 20 ≤ 0x200000) (bound : physPageStart < 2 ^ 47) :
    Enough pmmAllocator (fun s => (lowFreeFrames s).card) 0x110000 (usbTables physPageStart) t :=
  ((Finset.card_filter_le _ _).trans (usbTables_card inside bound)).trans (sample_lowFreeFrames accepts)

theorem sample_vmmBoot_lowest {t : PmmState}
    (accepts : PmmAccepts { mem := sampleTables } sampleInfo 0x14F000 0x200000 t) :
    PmmClear t ∧ VmmBoot pmmAllocator (PmmLowest t) 0x110000 0x111000 0x112000 t := by
  obtain ⟨clear, boot⟩ := sample_vmmBoot accepts
  exact ⟨clear, { boot with ready := ⟨boot.ready, (LowestFirst.of_accepts accepts).hint⟩ }⟩

/-- A 64-bit BAR at 32 GiB. -/
def highBar (offset : ℕ) : ℕ := if offset = 0x10 then 0x4 else if offset = 0x14 then 0x8 else 0

theorem usb_registers_uncached_iff_sample :
    ∃ init t address, PmmAccepts { mem := sampleTables } sampleInfo 0x14F000 0x200000 init ∧
      usbInit pmmAllocator 0x110000 init (some highBar) = some (t, address) ∧
      ((∀ i < 256, RegisterPage t.mem 0x110000 (0x800000000 / 4096 * 4096 + i * 4096)) ↔
        0xC0000000 ≤ 0x800000000) := by
  obtain ⟨init, accepts⟩ := sampleTables_accepts
  obtain ⟨clear, boot⟩ := sample_vmmBoot_lowest accepts
  have read : pciReadBar64 highBar 0x10 = (0x800000000, false) := by decide
  obtain ⟨t, address, result⟩ := usb_registers_uncached_iff clear boot read (by decide) (by decide)
    (sample_enough accepts (by decide) (by decide))
  exact ⟨init, t, address, accepts, result⟩

/-- A 32-bit BAR at 2 GiB. -/
def lowBar (offset : ℕ) : ℕ := if offset = 0x10 then 0x80000000 else 0

/-- There are frames enough, and the first register page stays cached. -/
theorem usb_registers_cached :
    ∃ init t address, PmmAccepts { mem := sampleTables } sampleInfo 0x14F000 0x200000 init ∧
      VmmBoot pmmAllocator (PmmLowest init) 0x110000 0x111000 0x112000 init ∧
      Enough pmmAllocator (fun s => (lowFreeFrames s).card) 0x110000 (usbTables 0x80000000) init ∧
      usbInit pmmAllocator 0x110000 init (some lowBar) = some (t, address) ∧
      walk t.mem 0x110000 0x80000000 = .ok ⟨0x80000000, pagePresent ||| pageWritable ||| pagePs⟩ ∧
      ¬RegisterPage t.mem 0x110000 0x80000000 := by
  obtain ⟨init, accepts⟩ := sampleTables_accepts
  obtain ⟨clear, boot⟩ := sample_vmmBoot_lowest accepts
  have enough := sample_enough accepts (show 0x80000000 % 0x200000 + 2 ^ 20 ≤ 0x200000 by decide) (by decide)
  have read : pciReadBar64 lowBar 0x10 = (0x80000000, false) := by decide
  obtain ⟨address, accepted⟩ := @usbInit_accepted _ pmmAllocator 0x110000 _ init _ read (by decide) (by decide)
  have mapped := (@usb_mapped _ _ _ _ _ 0x80000000 clear boot (by decide) enough).below 0x80000000 (by decide)
  have registers := registerPage_of_below (by decide) mapped
  refine ⟨init, _, address, accepts, boot, enough, accepted, ?_, fun page => ?_⟩
  · exact (walk_eq_leaf _ _ _).trans ((congrArg (resolve 0x80000000) mapped).trans (boot_resolve (by decide)))
  · exact absurd (registers.mp page) (by decide)

end RaryOS.Soundness
