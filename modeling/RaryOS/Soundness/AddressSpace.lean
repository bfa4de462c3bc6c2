import RaryOS.Proofs.TableStock
import RaryOS.Soundness.MapPermissions

/-! # The page tables are a map of addresses

What the processor makes of the tables, the place, the flags and the permissions of every address, is a map that
`boot_main` leaves and that each call changes for its page, or not at all when it is refused. So it does not matter
in which tables the entries are, nor which tables the calls share.
-/

namespace RaryOS.Soundness

open RaryOS.Core RaryOS.Model

/-- Where an address is mapped, and what the walk lets pass. -/
structure Mapping where
  leaf : Leaf
  user : Bool
  writable : Bool
deriving DecidableEq

abbrev AddressSpace := ℕ → Option Mapping

/-- The processor's view of the tables. -/
def translate (m : Memory) (pml4 : ℕ) : AddressSpace := fun virt =>
  (walk m pml4 virt).toOption.map fun leaf => ⟨leaf, effectiveUser m pml4 virt, effectiveWritable m pml4 virt⟩

/-- The first 4 GiB, mapped to themselves, of which the first is open to user mode. -/
def bootSpace : AddressSpace := fun virt =>
  if virt < 2 ^ 32 then some ⟨⟨virt, bootFlags (virt / 0x200000 * 0x200000)⟩, decide (virt < 2 ^ 30), true⟩ else none

/-- The mapping that a call asks for. Between 1 and 4 GiB a link of the boot tables keeps user mode out. -/
def VmmCall.mapping (call : VmmCall) (virt : ℕ) : Mapping where
  leaf := ⟨call.phys / 4096 * 4096 + virt % 2 ^ call.size.shift, call.flags ||| call.size.bits⟩
  user := entryUser call.flags && !decide call.BelowSupervisor
  writable := entryWritable call.flags

def VmmCall.update (call : VmmCall) (space : AddressSpace) : AddressSpace := fun virt =>
  if virt / 2 ^ call.size.shift = call.virt / 2 ^ call.size.shift then some (call.mapping virt) else space virt

/-- A call, and whether it was accepted. -/
def applyCall (space : AddressSpace) (e : VmmCall × Bool) : AddressSpace := if e.2 then e.1.update space else space

section Tables

variable {m : Memory} {pml4 virt entry below : ℕ}

/-- What the entry that maps an address says about it, where the links have the bits that they have. -/
def mappingOf (virt entry below : ℕ) : Option Mapping :=
  (resolve virt (some (entry, below))).toOption.map fun leaf =>
    ⟨leaf, entryUser entry && !(decide (below ≤ 1) && bootSupervisor ((pathOf virt).take 2)), entryWritable entry⟩

theorem effective_of_leaf (bits : LinkBits m pml4) (leaf : leafEntry m pml4 virt = some (entry, below))
    (large : below ≠ 3) :
    effectiveUser m pml4 virt =
        (entryUser entry && !(decide (below ≤ 1) && bootSupervisor ((pathOf virt).take 2))) ∧
      effectiveWritable m pml4 virt = entryWritable entry := by
  obtain ⟨found, _⟩ := Option.filter_eq_some_iff.mp leaf
  obtain ⟨p, i, q, t, split, length, reach, -, last⟩ := exists_of_lookup found
  have four := congrArg List.length split
  rw [List.length_append, List.length_cons, length] at four
  have whole : (pathOf virt).length = 4 := rfl
  rw [whole] at four
  obtain ⟨writable, user⟩ := bits.trail_all (by omega : p.length ≤ 3) reach
  have supervisor : bootSupervisor (p.take 2) = (decide (below ≤ 1) && bootSupervisor ((pathOf virt).take 2)) := by
    rcases Nat.lt_or_ge 1 below with above | low
    · obtain ⟨j, rfl⟩ : ∃ j, p = [j] := List.length_eq_one_iff.mp (by omega)
      rw [decide_eq_false (by omega), Bool.false_and]
      rfl
    · rw [split, List.take_append_of_le_length (by omega), decide_eq_true low, Bool.true_and]
  have links : (trail entryChild (tableEntries m) pml4 p).all entryUser = !bootSupervisor (p.take 2) := by
    rw [Bool.eq_iff_iff, user, Bool.not_eq_true', Bool.not_eq_true]
  rw [effectiveUser, effectiveWritable, walkEntries_eq_trail, last, List.all_append, List.all_append, writable, links,
    supervisor]
  simp only [List.all_cons, List.all_nil, Bool.true_and, Bool.and_comm, and_self]

theorem translate_eq (bits : LinkBits m pml4) :
    translate m pml4 virt = (leafEntry m pml4 virt).bind fun found => mappingOf virt found.1 found.2 := by
  rw [translate, walk_eq_leaf]
  rcases leaf : leafEntry m pml4 virt with _ | ⟨entry, below⟩
  · rfl
  · rw [Option.bind_some, mappingOf]
    rcases em (below = 3) with top | inside
    · have fault : resolve virt (some (entry, below)) = .error .reservedBit ∨
          resolve virt (some (entry, below)) = .error .notPresent := by
        rw [resolve, top]
        split
        · exact Or.inr rfl
        · exact Or.inl rfl
      rcases fault with fault | fault <;> rw [fault] <;> rfl
    · obtain ⟨user, writable⟩ := effective_of_leaf bits leaf inside
      rw [user, writable]

end Tables

section Runs

variable {σ : Type*} {pmm : PageAllocator σ} {Ready : σ → Set ℕ → Prop} {pml4 pdpt pd virt : ℕ} {s₀ s : σ}
  {used : Set ℕ} {call : VmmCall}

/-- The entries that map other addresses, or all when the call is refused. -/
theorem VmmCall.leafEntry_run (fresh : FreshPages pmm Ready) (tables : VmmTree pmm Ready pml4 s used)
    (allowed : call.Allowed) (small : virt < 2 ^ 48)
    (apart : call.Refused pmm pml4 s ∨ virt / 2 ^ call.size.shift ≠ call.virt / 2 ^ call.size.shift) :
    leafEntry (pmm.mem (call.run pmm pml4 s)) pml4 virt = leafEntry (pmm.mem s) pml4 virt := by
  rcases em call.Misaligned with misaligned | aligned
  · rw [VmmCall.run_misaligned s misaligned]
  have short := (List.length_take_le _ (pathOf call.virt)).trans call.size.above_le
  have leaf : ((pathOf call.virt).take call.size.above).length < 3 → entryPs call.entry = true := by
    intro above
    rw [call.entry_ps]
    rw [← VmmCall.tablePath, call.tablePath_length] at above
    revert above
    cases call.size <;> decide
  obtain ⟨_, others, refused, _⟩ := vmmMapAt_spec fresh tables call.index short call.entry_lt call.entry_present leaf
  rw [← call.run_eq aligned] at others refused
  rcases apart with (misaligned | gaveUp) | outside
  · exact absurd misaligned aligned
  · exact refused gaveUp virt
  · exact others virt (mt (VmmCall.through_iff allowed small).mp outside)

/-- One call. -/
theorem VmmCall.translate_run (fresh : FreshPages pmm Ready) (tables : VmmTree pmm Ready pml4 s used)
    (bits : LinkBits (pmm.mem s) pml4) (allowed : call.Allowed) (small : virt < 2 ^ 48) {accepted : Bool}
    (answer : accepted = true ↔ ¬call.Refused pmm pml4 s) :
    translate (pmm.mem (call.run pmm pml4 s)) pml4 virt =
      applyCall (translate (pmm.mem s) pml4) (call, accepted) virt := by
  obtain ⟨⟨_, _, bits'⟩, permitted⟩ := @LinkBits.run _ _ _ _ _ _ call fresh tables bits
  have same (apart : call.Refused pmm pml4 s ∨ virt / 2 ^ call.size.shift ≠ call.virt / 2 ^ call.size.shift) :
      translate (pmm.mem (call.run pmm pml4 s)) pml4 virt = translate (pmm.mem s) pml4 virt := by
    rw [translate_eq bits', translate_eq bits, VmmCall.leafEntry_run fresh tables allowed small apart]
  rw [applyCall]
  cases accepted with
  | false =>
    rw [if_neg Bool.false_ne_true]
    exact same (Or.inl (not_not.mp (mt answer.mpr Bool.false_ne_true)))
  | true =>
    have takes := answer.mp rfl
    rw [if_pos rfl, VmmCall.update]
    dsimp only
    split
    · next inside =>
      obtain ⟨writable, user⟩ := permitted takes virt inside
      rw [translate, (call.effect fresh tables allowed).2.mapped takes virt small inside, writable, user, Bool.and_comm]
      rfl
    · next outside => exact same (Or.inr outside)

/-- A call with allowed arguments, labelled with its answer. -/
def VmmAnswerStep (pmm : PageAllocator σ) (pml4 : ℕ) (s : σ) (e : VmmCall × Bool) (t : σ) : Prop :=
  e.1.Allowed ∧ t = e.1.run pmm pml4 s ∧ (e.2 = true ↔ ¬e.1.Refused pmm pml4 s)

/-- The permissions in the page directories: user mode below 1 GiB. -/
theorem bootPdEntry_bits (virt : ℕ) :
    entryUser (bootPdEntry (virt / 0x200000 * 0x200000)) = decide (virt < 2 ^ 30) ∧
      entryWritable (bootPdEntry (virt / 0x200000 * 0x200000)) = true := by
  have user : (virt / 0x200000 * 0x200000).testBit 2 = false := by
    rw [Nat.testBit_eq_decide_div_mod_eq]
    exact decide_eq_false (by omega)
  have masks : Nat.testBit 0x93 2 = false ∧ Nat.testBit 0x83 2 = false ∧ Nat.testBit 0x87 2 = true ∧
      Nat.testBit 0x93 1 = true ∧ Nat.testBit 0x83 1 = true ∧ Nat.testBit 0x87 1 = true := by decide
  obtain ⟨device, kernel, ram, device', kernel', ram'⟩ := masks
  rw [entryUser_eq, entryWritable_eq, bootPdEntry]
  split
  · rw [Nat.testBit_or, Nat.testBit_or, user, device, device', decide_eq_false (by omega)]
    exact ⟨rfl, Bool.or_true _⟩
  split
  · rw [Nat.testBit_or, Nat.testBit_or, user, kernel, kernel', decide_eq_false (by omega)]
    exact ⟨rfl, Bool.or_true _⟩
  · rw [Nat.testBit_or, Nat.testBit_or, user, ram, ram', decide_eq_true (by omega)]
    exact ⟨rfl, Bool.or_true _⟩

/-- The tables of `boot_main`. -/
theorem boot_translate (boot : VmmBoot pmm Ready pml4 pdpt pd s) (small : virt < 2 ^ 48) :
    translate (pmm.mem s) pml4 virt = bootSpace virt := by
  have bits := boot_linkBits boot.symbols boot.contents
  rw [translate_eq bits, bootSpace]
  rcases Nat.lt_or_ge virt (2 ^ 32) with low | high
  · obtain ⟨user, writable⟩ := bootPdEntry_bits virt
    have permitted : (decide (virt < 2 ^ 30) && !(decide (1 ≤ 1) && bootSupervisor ((pathOf virt).take 2))) =
        decide (virt < 2 ^ 30) := by
      rcases Nat.lt_or_ge virt (2 ^ 30) with first | beyond
      · have free : bootSupervisor ((pathOf virt).take 2) = false := by
          rw [← Bool.not_eq_true]
          simp only [pathOf, List.take_succ_cons, List.take_zero, bootSupervisor, Bool.and_eq_true, decide_eq_true_eq,
            pdptIndex_eq, pdptIndex]
          omega
        rw [free, Bool.and_false, Bool.not_false, Bool.and_true]
      · rw [decide_eq_false (by omega), Bool.false_and]
    rw [boot_leafEntry boot.symbols boot.contents low, if_pos low, Option.bind_some, mappingOf, boot_resolve low, user,
      writable, permitted]
    rfl
  · rw [boot_leafEntry_high boot.symbols boot.contents high small, if_neg (by omega)]
    rfl

theorem applyCall_congr {space space' : AddressSpace} (same : space virt = space' virt) (e : VmmCall × Bool) :
    applyCall space e virt = applyCall space' e virt := by
  rw [applyCall, applyCall]
  split
  · rw [VmmCall.update, VmmCall.update, same]
  · exact same

/-- No call opens an address to user mode, and `boot_main` the first gigabyte only. -/
theorem user_below {es : List (VmmCall × Bool)} (none : ∀ e ∈ es, entryUser e.1.flags = false) {mapping : Mapping}
    (found : es.foldl applyCall bootSpace virt = some mapping) (user : mapping.user = true) : virt < 2 ^ 30 := by
  induction es using List.reverseRecOn generalizing mapping with
  | nil =>
    rw [List.foldl_nil, bootSpace] at found
    split at found
    · cases found
      exact of_decide_eq_true user
    · cases found
  | append_singleton es e ih =>
    rw [List.forall_mem_append, List.forall_mem_singleton] at none
    rw [List.foldl_append, List.foldl_cons, List.foldl_nil, applyCall] at found
    split at found
    · rw [VmmCall.update] at found
      split at found
      · cases found
        rw [VmmCall.mapping, none.2, Bool.false_and] at user
        cases user
      · exact ih none.1 found user
    · exact ih none.1 found user

/-- After any run of the three mapping functions from the boot tables, the processor finds for every address what the
accepted calls have made of the map that `boot_main` leaves, one after the other, and nothing else. If no call asks
for user mode, then user mode never gets beyond the first gigabyte. -/
theorem tables_refine_space (fresh : FreshPages pmm Ready) (boot : VmmBoot pmm Ready pml4 pdpt pd s₀)
    {es : List (VmmCall × Bool)} (run : Path (VmmAnswerStep pmm pml4) s₀ es s) (small : virt < 2 ^ 48) :
    translate (pmm.mem s) pml4 virt = es.foldl applyCall bootSpace virt ∧
      ((∀ e ∈ es, entryUser e.1.flags = false) → ∀ mapping, translate (pmm.mem s) pml4 virt = some mapping →
        mapping.user = true → virt < 2 ^ 30) := by
  obtain ⟨-, refines⟩ := run.snoc_induction (fun es s =>
    (∃ used, VmmTree pmm Ready pml4 s used ∧ LinkBits (pmm.mem s) pml4) ∧
      translate (pmm.mem s) pml4 virt = es.foldl applyCall bootSpace virt)
    ⟨⟨_, boot.tree, boot_linkBits boot.symbols boot.contents⟩, boot_translate boot small⟩ (by
      rintro es s e t - ⟨⟨used, tables, bits⟩, refines⟩ ⟨allowed, rfl, answer⟩
      refine ⟨(bits.run fresh tables).1, ?_⟩
      rw [VmmCall.translate_run fresh tables bits allowed small answer, List.foldl_append, List.foldl_cons,
        List.foldl_nil]
      exact applyCall_congr refines e)
  refine ⟨refines, fun none mapping found user => ?_⟩
  rw [refines] at found
  exact user_below none found user

end Runs

/-- Large pages over a part of the first gigabyte, of which the second replaces the first. -/
def largePage : VmmCall := ⟨.huge2mb, 0x400000, 0x40000000, 2⟩
def otherLargePage : VmmCall := ⟨.huge2mb, 0x400000, 0x80000000, 3⟩

/-- A page where a large one lies. -/
def pageInside : VmmCall := ⟨.page, 0x600000, 0x5000, 3⟩

/-- What is mapped last counts, and takes the pages from user mode. The call in the way of a large page changes
nothing. -/
theorem tables_refine_space_sample :
    ∃ t s, PmmAccepts { mem := sampleTables } sampleInfo 0x14F000 0x200000 t ∧
      Path (VmmAnswerStep pmmAllocator 0x110000) t
        [(largePage, true), (otherLargePage, true), (pageInside, false)] s ∧
      translate (pmmAllocator.mem s) 0x110000 0x400123 = some ⟨⟨0x80000123, 0x83⟩, false, true⟩ ∧
      translate (pmmAllocator.mem s) 0x110000 0x600123 = some ⟨⟨0x600123, 0x87⟩, true, true⟩ := by
  obtain ⟨t, accepts⟩ := sampleTables_accepts
  obtain ⟨clear, boot⟩ := sample_vmmBoot accepts
  have fresh := pmm_freshPages clear
  have first : largePage.Allowed := ⟨by decide, by decide, ⟨by decide, by decide, by decide⟩⟩
  have second : otherLargePage.Allowed := ⟨by decide, by decide, ⟨by decide, by decide, by decide⟩⟩
  have third : pageInside.Allowed := ⟨by decide, by decide, ⟨by decide, by decide, by decide⟩⟩
  have aligned : ¬largePage.Misaligned ∧ ¬otherLargePage.Misaligned :=
    ⟨fun misaligned => absurd misaligned.2 (by decide), fun misaligned => absurd misaligned.2 (by decide)⟩
  obtain ⟨written, tables⟩ := VmmCall.run_written fresh boot.tree aligned.1 (boot.reach (by decide))
  have reach := descend_written written.tables.tree written.write.short written.write.reach written.write.others
  have leaf : leafEntry
      (otherLargePage.run pmmAllocator 0x110000 (largePage.run pmmAllocator 0x110000 t)).mem 0x110000 0x600000 =
        some (bootPdEntry 0x600000, 1) := by
    have kept := VmmCall.leafEntry_run fresh tables second (by decide : 0x600000 < 2 ^ 48) (Or.inr (by decide))
    have before := VmmCall.leafEntry_run fresh boot.tree first (by decide : 0x600000 < 2 ^ 48) (Or.inr (by decide))
    exact (kept.trans before).trans (boot_leafEntry boot.symbols boot.contents (by decide))
  have refused : pageInside.Refused pmmAllocator 0x110000
      (otherLargePage.run pmmAllocator 0x110000 (largePage.run pmmAllocator 0x110000 t)) :=
    Or.inr (Or.inl ((hugeAbove_iff_leafEntry _ _ _).mpr ⟨_, _, leaf⟩))
  have run : Path (VmmAnswerStep pmmAllocator 0x110000) t
      [(largePage, true), (otherLargePage, true), (pageInside, false)] _ :=
    .cons ⟨first, rfl, iff_of_true rfl (boot.accepts _ rfl aligned.1 (by decide))⟩
      (.cons ⟨second, rfl, iff_of_true rfl (VmmCall.not_refused_of_reach aligned.2 reach)⟩
        (.cons ⟨third, rfl, iff_of_false Bool.false_ne_true (not_not.mpr refused)⟩ (.nil _)))
  have inside := (tables_refine_space fresh boot run (by decide : 0x400123 < 2 ^ 48)).1
  have outside := (tables_refine_space fresh boot run (by decide : 0x600123 < 2 ^ 48)).1
  exact ⟨t, _, accepts, run, inside.trans (by decide), outside.trans (by decide)⟩

end RaryOS.Soundness
