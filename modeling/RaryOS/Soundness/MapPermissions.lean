import RaryOS.Soundness.VmmRuns

/-! # The permissions of a mapped page

The links that `vmm_next_table` writes let everything pass, so that the last entry alone decides. The
boot tables are the exception: their links for the addresses from 1 to 4 GiB are without the user bit,
and a link that is there is not written again.
-/

namespace RaryOS.Soundness

open RaryOS.Core RaryOS.Model

/-- The path of a link that `boot_main` made without the user bit. -/
def bootSupervisor : List (Fin 512) → Bool
  | [i, k] => i == 0 && (1 ≤ k.val && k.val ≤ 3)
  | _ => false

/-- Every link lets writes pass, and user mode unless it is one of these, which are all in use. -/
structure LinkBits (m : Memory) (pml4 : ℕ) : Prop where
  links : ∀ p t i, p.length ≤ 2 → descend entryChild (tableEntries m) pml4 p = some t →
    entryChild (tableEntries m t i) ≠ none →
      entryWritable (tableEntries m t i) = true ∧ entryUser (tableEntries m t i) = !bootSupervisor (p ++ [i])
  occupied : ∃ t, descend entryChild (tableEntries m) pml4 [0] = some t ∧
    ∀ k, bootSupervisor [0, k] = true → entryPresent (tableEntries m t k) = true

theorem bootSupervisor_eq {p : List (Fin 512)} {i : Fin 512} (supervisor : bootSupervisor (p ++ [i]) = true) :
    p = [0] := by
  match p, supervisor with
  | [j], supervisor =>
    simp only [List.singleton_append, bootSupervisor, Bool.and_eq_true, beq_iff_eq] at supervisor
    rw [supervisor.1]
  | [], supervisor => cases supervisor
  | _ :: _ :: p, supervisor => cases p <;> cases supervisor

theorem tableLink_writable (table : ℕ) : entryWritable (tableLink table) = true := by
  have bit : pageWritable.testBit 1 = true := by decide
  rw [entryWritable_eq, tableLink, Nat.testBit_or, Nat.testBit_or, bit, Bool.or_true, Bool.true_or]

theorem tableLink_user (table : ℕ) : entryUser (tableLink table) = true := by
  have bit : pageUser.testBit 2 = true := by decide
  rw [entryUser_eq, tableLink, Nat.testBit_or, bit, Bool.or_true]

namespace LinkBits

variable {m m' : Memory} {pml4 t entry : ℕ} {p : List (Fin 512)} {i : Fin 512}

/-- Entries of tables that are not reached do not matter. -/
theorem congr (bits : LinkBits m pml4) (agree : ∀ u j, Reached entryChild (tableEntries m) pml4 3 u →
    tableEntries m' u j = tableEntries m u j) : LinkBits m' pml4 where
  links q w j short reach := by
    rw [descend_of_agree agree (by omega)] at reach
    rw [agree w j ⟨q, by omega, reach⟩]
    exact bits.links q w j short reach
  occupied := by
    obtain ⟨t, reach, present⟩ := bits.occupied
    refine ⟨t, by rwa [descend_of_agree agree (by decide)], fun k supervisor => ?_⟩
    rw [agree t k ⟨[0], by decide, reach⟩]
    exact present k supervisor

/-- A write of a present entry, which lets everything pass if it is a link. -/
theorem write (bits : LinkBits m pml4) (tree : TableTree entryChild (tableEntries m) pml4 3)
    (write : EntryWrite m m' pml4 p t i entry) (present : entryPresent entry = true)
    (apart : p ++ [i] ≠ [0]) (passes : p.length ≤ 2 → entryChild entry ≠ none →
      entryWritable entry = true ∧ entryUser entry = true ∧ bootSupervisor (p ++ [i]) = false) :
    LinkBits m' pml4 := by
  -- a table with entries was reached before, and its entries are what they were, up to the written one
  have before {q : List (Fin 512)} {w : ℕ} {j : Fin 512} (short : q.length ≤ 2)
      (reach : descend entryChild (tableEntries m') pml4 q = some w)
      (some : tableEntries m' w j ≠ 0) :
      descend entryChild (tableEntries m) pml4 q = Option.some w ∧
        (tableEntries m' w j = tableEntries m w j ∨
          tableEntries m' w j = entry ∧ q = p ∧ j = i) := by
    rcases descend_cases tree write.short write.reach write.others write.blank (by omega) reach with
      old | ⟨above, _, link⟩
    · refine ⟨old, ?_⟩
      by_cases same : w = t ∧ j = i
      · obtain ⟨rfl, rfl⟩ := same
        exact Or.inr ⟨write.written, tree q p w (by omega) write.short old write.reach, rfl⟩
      · exact Or.inl (write.others w j ⟨q, by omega, old⟩ same)
    · rw [write.written] at link
      exact absurd ((write.fresh above w link).2 j) some
  constructor
  · intro q w j short reach link
    have nonzero : tableEntries m' w j ≠ 0 := fun zero => link (zero ▸ entryChild_zero)
    obtain ⟨old, same | ⟨same, rfl, rfl⟩⟩ := before short reach nonzero
    · rw [same] at link ⊢
      exact bits.links q w j short old link
    · rw [same] at link ⊢
      obtain ⟨writable, user, free⟩ := passes short link
      rw [free]
      exact ⟨writable, user⟩
  · obtain ⟨u, reach, occupied⟩ := bits.occupied
    have root : ¬p ++ [i] <+: [0] := by
      rintro ⟨rest, split⟩
      rcases List.append_eq_singleton_iff.mp split with ⟨none, _⟩ | ⟨here, _⟩
      · exact absurd none (List.append_ne_nil_of_right_ne_nil p (List.cons_ne_nil i []))
      · exact apart here
    refine ⟨u, ?_, fun k supervisor => ?_⟩
    · rwa [descend_of_apart tree write.short write.reach write.others (by decide) root]
    · by_cases same : u = t ∧ k = i
      · rw [same.1, same.2, write.written]
        exact present
      · rw [write.others u k ⟨[0], by decide, reach⟩ same]
        exact occupied k supervisor

/-- Linking a new table. -/
theorem link (bits : LinkBits m pml4) (tree : TableTree entryChild (tableEntries m) pml4 3) {u : ℕ}
    (page : IsPage u) (absent : entryPresent (tableEntries m t i) = false)
    (write : EntryWrite m m' pml4 p t i (tableLink u)) : LinkBits m' pml4 := by
  obtain ⟨r, root, occupied⟩ := bits.occupied
  have present := (entryChild_eq_some.mp (tableLink_child page).2).1
  refine bits.write tree write present (fun here => ?_) fun _ _ => ⟨?_, ?_, ?_⟩
  · -- the first entry of the root is a link already
    obtain ⟨rfl, rfl⟩ : p = [] ∧ i = 0 := by
      rcases List.append_eq_singleton_iff.mp here with ⟨none, one⟩ | ⟨_, none⟩
      · exact ⟨none, (List.cons.inj one).1⟩
      · cases none
    cases write.reach
    rw [descend, entryChild_of_absent absent] at root
    cases root
  · exact tableLink_writable u
  · exact tableLink_user u
  · rw [← Bool.not_eq_true]
    intro supervisor
    obtain rfl := bootSupervisor_eq supervisor
    obtain rfl := Option.some.inj (root.symm.trans write.reach)
    rw [occupied i supervisor] at absent
    cases absent

/-- The entry of a call. -/
theorem leaf (bits : LinkBits m pml4) (tree : TableTree entryChild (tableEntries m) pml4 3)
    {call : VmmCall} (write : EntryWrite m m' pml4 call.tablePath t call.index call.entry) :
    LinkBits m' pml4 := by
  have length := call.tablePath_length
  refine bits.write tree write call.entry_present (fun here => ?_) fun short link => ?_
  · have one := congrArg List.length here
    rw [List.length_append, length, List.length_singleton, List.length_singleton] at one
    revert one
    cases call.size <;> decide
  · apply absurd (entryChild_of_ps _) link
    rw [length] at short
    rw [call.entry_ps]
    revert short
    cases call.size <;> decide

/-- The links on a path to a table, all together. -/
theorem trail_all (bits : LinkBits m pml4) (short : p.length ≤ 3)
    (reach : descend entryChild (tableEntries m) pml4 p = some t) :
    (trail entryChild (tableEntries m) pml4 p).all entryWritable = true ∧
      ((trail entryChild (tableEntries m) pml4 p).all entryUser = true ↔
        ¬bootSupervisor (p.take 2) = true) := by
  have link {q : List (Fin 512)} {j : Fin 512} {r : List (Fin 512)} {w : ℕ} (split : p = q ++ j :: r)
      (down : descend entryChild (tableEntries m) pml4 q = some w) :
      entryWritable (tableEntries m w j) = true ∧ entryUser (tableEntries m w j) = !bootSupervisor (q ++ [j]) := by
    apply bits.links q w j _ down
    · intro none
      rw [split, descend_append, down, Option.bind_some, descend, none] at reach
      cases reach
    · rw [split, List.length_append, List.length_cons] at short
      omega
  constructor
  · rw [List.all_eq_true]
    intro e member
    obtain ⟨q, j, r, w, split, down, entry⟩ := mem_trail member
    rw [entry]
    exact (link split down).1
  · rw [List.all_eq_true]
    constructor
    · intro all supervisor
      obtain ⟨i, r, rfl⟩ : ∃ i r, p = [0] ++ i :: r := by
        rcases p with _ | ⟨i, _ | ⟨k, r⟩⟩
        · cases supervisor
        · cases supervisor
        · obtain rfl : i = 0 := by
            simpa using (bootSupervisor_eq (p := [i]) (i := k) supervisor)
          exact ⟨k, r, rfl⟩
      obtain ⟨w, down, _⟩ := Option.bind_eq_some_iff.mp ((descend_append _ _ _).symm.trans reach)
      have user := all _ (mem_trail_of_descend down i r)
      have here : bootSupervisor ([0] ++ [i]) = true := supervisor
      rw [(link rfl down).2, here] at user
      cases user
    · intro free e member
      obtain ⟨q, j, r, w, split, down, entry⟩ := mem_trail member
      rw [entry, (link split down).2, Bool.not_eq_true']
      rw [← Bool.not_eq_true]
      intro supervisor
      obtain rfl := bootSupervisor_eq supervisor
      apply free
      rw [split]
      exact supervisor

end LinkBits

section Boot

variable {m : Memory} {pml4 pdpt pd : ℕ}

/-- The permission bits of a page address with low bits. -/
theorem page_bits {page : ℕ} (isPage : IsPage page) (low : ℕ) :
    entryUser (page + low) = low.testBit 2 ∧ entryWritable (page + low) = low.testBit 1 := by
  have aligned := isPage.aligned
  simp only [entryUser_eq, entryWritable_eq, Nat.testBit_eq_decide_div_mod_eq]
  exact ⟨decide_eq_decide.mpr (by omega), decide_eq_decide.mpr (by omega)⟩

theorem boot_linkBits (symbols : BootSymbols pml4 pdpt pd) (contents : BootEntries m pml4 pdpt pd) :
    LinkBits m pml4 where
  links p t i _ reach link := by
    rcases boot_descend symbols contents reach with ⟨rfl, rfl⟩ | ⟨rfl, rfl⟩ | ⟨k, bound, rfl, rfl⟩
    · rw [boot_inPml4 symbols contents] at link
      obtain rfl : i = 0 := by
        by_contra other
        exact link (if_neg other)
      have entry : tableEntries m t 0 = pdpt + 7 := contents.inPml4 0 (by decide)
      obtain ⟨user, writable⟩ := page_bits symbols.pagePdpt.1 7
      rw [entry, user, writable]
      decide
    · rw [boot_inPdpt symbols contents] at link
      have linked : i.val < 4 := by
        by_contra other
        exact link (if_neg other)
      have entry : tableEntries m t i = if i.val = 0 then pd + 7 else if i.val < 4 then pd + 0x1000 * i + 3 else 0 :=
        contents.inPdpt i i.isLt
      rw [if_pos linked] at entry
      by_cases first : i.val = 0
      · rw [if_pos first] at entry
        obtain rfl : i = 0 := Fin.ext first
        obtain ⟨user, writable⟩ := page_bits symbols.pagePd.1 7
        rw [entry, user, writable]
        decide
      · obtain ⟨user, writable⟩ := page_bits (isPage_pd symbols linked) 3
        have supervisor : bootSupervisor ([0] ++ [i]) = true := by
          rw [List.singleton_append, bootSupervisor, decide_eq_true (show 1 ≤ i.val by omega),
            decide_eq_true (show i.val ≤ 3 by omega)]
          rfl
        rw [if_neg first] at entry
        rw [entry, user, writable, supervisor]
        decide
    · rw [boot_inPd contents bound] at link
      exact absurd (entryChild_bootPdEntry _) link
  occupied := by
    refine ⟨pdpt, ?_, fun k supervisor => ?_⟩
    · rw [descend, boot_inPml4 symbols contents, if_pos rfl]
      rfl
    · simp only [bootSupervisor, Bool.and_eq_true, decide_eq_true_eq] at supervisor
      have link := boot_inPdpt symbols contents k
      rw [if_pos (by omega)] at link
      exact (entryChild_eq_some.mp link).1

end Boot

section Runs

variable {σ : Type*} {pmm : PageAllocator σ} {Ready : σ → Set ℕ → Prop} {pml4 pdpt pd : ℕ} {s₀ s : σ}
  {used : Set ℕ} {call : VmmCall}

/-- The page lies between 1 and 4 GiB, and a link of the page directory pointer table is passed. -/
def VmmCall.BelowSupervisor (call : VmmCall) : Prop :=
  call.size ≠ .huge1gb ∧ 2 ^ 30 ≤ call.virt % 2 ^ 48 ∧ call.virt % 2 ^ 48 < 2 ^ 32

instance (call : VmmCall) : Decidable call.BelowSupervisor := inferInstanceAs (Decidable (_ ∧ _))

theorem VmmCall.belowSupervisor_iff (call : VmmCall) :
    bootSupervisor (call.tablePath.take 2) = true ↔ call.BelowSupervisor := by
  obtain ⟨size, virt, phys, flags⟩ := call
  have path : bootSupervisor ((pathOf virt).take 2) = true ↔
      2 ^ 30 ≤ virt % 2 ^ 48 ∧ virt % 2 ^ 48 < 2 ^ 32 := by
    simp only [pathOf, List.take_succ_cons, List.take_zero, bootSupervisor, Bool.and_eq_true,
      decide_eq_true_eq, beq_iff_eq, Fin.ext_iff, pml4Index_eq, pdptIndex_eq, pml4Index, pdptIndex, Fin.val_zero]
    omega
  cases size with
  | page =>
    have small : MapSize.page ≠ .huge1gb := by decide
    exact path.trans (and_iff_right small).symm
  | huge2mb =>
    have small : MapSize.huge2mb ≠ .huge1gb := by decide
    exact path.trans (and_iff_right small).symm
  | huge1gb => exact iff_of_false Bool.false_ne_true fun below => below.1 rfl

/-- Every call keeps the bits of the links, and a call that writes its entry gives its page the
permissions of this entry, but no user mode below a link without it. -/
theorem LinkBits.run (fresh : FreshPages pmm Ready) (tables : VmmTree pmm Ready pml4 s used)
    (bits : LinkBits (pmm.mem s) pml4) :
    (∃ used', VmmTree pmm Ready pml4 (call.run pmm pml4 s) used' ∧
        LinkBits (pmm.mem (call.run pmm pml4 s)) pml4) ∧
      (¬call.Refused pmm pml4 s → ∀ virt, virt / 2 ^ call.size.shift = call.virt / 2 ^ call.size.shift →
        effectiveWritable (pmm.mem (call.run pmm pml4 s)) pml4 virt = entryWritable call.flags ∧
          effectiveUser (pmm.mem (call.run pmm pml4 s)) pml4 virt =
            (!decide call.BelowSupervisor && entryUser call.flags)) := by
  have cases_ := call.run_cases fresh (fun s _ => LinkBits (pmm.mem s) pml4) (fun s used tables bits _ => ?_)
    (fun s used p i t s' _ linked bits => ?_) tables bits
  · rcases cases_ with ⟨refused, kept⟩ | ⟨_, mid, used', t, midBits, written, tables'⟩
    · exact ⟨kept, fun accepted => absurd refused accepted⟩
    · have tree := written.tables.tree
      refine ⟨⟨used', tables', midBits.leaf tree written.write⟩, fun _ virt inside => ?_⟩
      obtain ⟨below, split, ends⟩ := call.tablePath_split inside
      obtain ⟨writable, user⟩ := midBits.trail_all written.write.short written.write.reach
      rw [call.belowSupervisor_iff] at user
      rw [effectiveWritable, effectiveUser, walkEntries_eq_trail, split,
        written.write.trail_through tree below ends, List.all_append, List.all_append, writable,
        Bool.eq_iff_iff.mpr (user.trans (decide_eq_true_iff (p := ¬call.BelowSupervisor)).symm)]
      simp only [List.all_cons, List.all_nil, Bool.and_true, Bool.true_and, call.entry_writable,
        call.entry_user, decide_not, and_self]
  · exact bits.congr fun u j reached =>
      tableEntries_congr (fresh.keeps s used tables.ready u (tables.reached u reached)) j
  · exact bits.link linked.tables.tree (fresh.page s used linked.tables.ready linked.found).1
      linked.absent linked.write

/-- In every run from the boot tables, whatever the arguments, a call that writes its entry gives its page
exactly the user and write permission of its flags, unless it asks for user mode with a page of 4 KiB or
2 MiB between 1 and 4 GiB. -/
theorem effective_permission_iff (fresh : FreshPages pmm Ready) (boot : VmmBoot pmm Ready pml4 pdpt pd s₀)
    {calls : List VmmCall} (run : Path (VmmCallStep pmm pml4) s₀ calls s)
    (accepted : ¬call.Refused pmm pml4 s) {virt : ℕ}
    (inside : virt / 2 ^ call.size.shift = call.virt / 2 ^ call.size.shift) :
    effectiveUser (pmm.mem (call.run pmm pml4 s)) pml4 virt = entryUser call.flags ∧
        effectiveWritable (pmm.mem (call.run pmm pml4 s)) pml4 virt = entryWritable call.flags ↔
      ¬(call.BelowSupervisor ∧ entryUser call.flags = true) := by
  obtain ⟨used, tables, bits⟩ := run.invariant
    (fun s => ∃ used, VmmTree pmm Ready pml4 s used ∧ LinkBits (pmm.mem s) pml4)
    ⟨_, boot.tree, boot_linkBits boot.symbols boot.contents⟩ fun s call t ⟨_, tables, bits⟩ step => by
      cases step
      exact (bits.run fresh tables).1
  obtain ⟨writable, user⟩ := (bits.run fresh tables).2 accepted virt inside
  rw [writable, user]
  by_cases below : call.BelowSupervisor <;> cases entryUser call.flags <;> simp [below]

/-- An aligned call is not refused when the table of its entry is there. -/
theorem VmmCall.not_refused_of_reach {call : VmmCall} (aligned : ¬call.Misaligned) {t : ℕ}
    (reach : descend entryChild (tableEntries (pmm.mem s)) pml4 call.tablePath = some t) :
    ¬call.Refused pmm pml4 s := by
  obtain ⟨notHuge, enough⟩ := vmmDescend_of_descend reach
  rintro (misaligned | huge | missing)
  · exact aligned misaligned
  · exact notHuge huge
  · exact enough missing

/-- The page directories of the boot tables. -/
theorem VmmBoot.reach (boot : VmmBoot pmm Ready pml4 pdpt pd s) {virt : ℕ} (low : virt < 2 ^ 32) :
    descend entryChild (tableEntries (pmm.mem s)) pml4 ((pathOf virt).take 2) =
      some (pd + 0x1000 * (virt / 2 ^ 30)) := by
  obtain ⟨inPml4, inPdpt, _⟩ := boot_low boot.symbols boot.contents low
  simp only [pathOf, List.take_succ_cons, List.take_zero, descend, inPml4, Option.bind_some, inPdpt]

/-- A 2 MiB page below 4 GiB is not refused in the boot tables. -/
theorem VmmBoot.accepts (boot : VmmBoot pmm Ready pml4 pdpt pd s) (call : VmmCall)
    (size : call.size = .huge2mb) (aligned : ¬call.Misaligned) (low : call.virt < 2 ^ 32) :
    ¬call.Refused pmm pml4 s := by
  refine VmmCall.not_refused_of_reach aligned (t := pd + 0x1000 * (call.virt / 2 ^ 30)) ?_
  rw [VmmCall.tablePath, size]
  exact boot.reach low

end Runs

/-- On the sample machine, a writable user page of 2 MiB below 1 GiB. -/
theorem effective_permission_iff_sample :
    ∃ t, PmmAccepts { mem := sampleTables } sampleInfo 0x14F000 0x200000 t ∧
      effectiveUser (VmmCall.run pmmAllocator 0x110000 t ⟨.huge2mb, 0x200000, 0x400000, 6⟩).mem
        0x110000 0x2ABCDE = true ∧
      effectiveWritable (VmmCall.run pmmAllocator 0x110000 t ⟨.huge2mb, 0x200000, 0x400000, 6⟩).mem
        0x110000 0x2ABCDE = true := by
  obtain ⟨t, accepts⟩ := sampleTables_accepts
  obtain ⟨clear, boot⟩ := sample_vmmBoot accepts
  have accepted := boot.accepts ⟨.huge2mb, 0x200000, 0x400000, 6⟩ rfl
    (fun misaligned => absurd misaligned.2 (by decide)) (by decide)
  have inside : 0x2ABCDE / 2 ^ 21 = 0x200000 / 2 ^ 21 := by decide
  exact ⟨t, accepts, (effective_permission_iff (pmm_freshPages clear) boot (.nil t) accepted
    inside).mpr (by decide)⟩

/-- A user page of 2 MiB at 1 GiB is written, and user mode may not access it. -/
theorem effective_permission_fails :
    ∃ t, PmmAccepts { mem := sampleTables } sampleInfo 0x14F000 0x200000 t ∧
      ¬VmmCall.Refused pmmAllocator 0x110000 t ⟨.huge2mb, 0x40000000, 0x400000, 6⟩ ∧
      effectiveUser (VmmCall.run pmmAllocator 0x110000 t ⟨.huge2mb, 0x40000000, 0x400000, 6⟩).mem
        0x110000 0x40000000 ≠ entryUser 6 := by
  obtain ⟨t, accepts⟩ := sampleTables_accepts
  obtain ⟨clear, boot⟩ := sample_vmmBoot accepts
  have accepted := boot.accepts ⟨.huge2mb, 0x40000000, 0x400000, 6⟩ rfl
    (fun misaligned => absurd misaligned.2 (by decide)) (by decide)
  have effect := ((boot_linkBits boot.symbols boot.contents).run (pmm_freshPages clear) boot.tree).2
    accepted 0x40000000 rfl
  exact ⟨t, accepts, accepted, fun same => absurd (effect.2.symm.trans same) (by decide)⟩

end RaryOS.Soundness
