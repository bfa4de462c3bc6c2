import RaryOS.Proofs.MapWalks
import RaryOS.Proofs.Multiboot2
import RaryOS.Soundness.PmmInitFree

/-! # From the Multiboot2 tags to the walks of the kernel

The conversion writes a format that three loops of the kernel decode on their own. For every
well-formed block the conversion returns, its result is the one that the tags determine, and the loops
of `pmm_init` and `kernel_main` go through exactly the entries it wrote.
-/

namespace RaryOS.Soundness

open RaryOS.Core RaryOS.Model

/-- A well-formed information block at `mb2Addr`, with its tags. -/
structure Mb2Block (m : Memory) (mb2Addr : ℕ) (tags : List ℕ) : Prop where
  present : mb2Addr ≠ 0
  list : Mb2Tags m (mb2Addr + m.load32 mb2Addr) (mb2Addr + 8) tags
  noWrap : ∀ e ∈ mb2Entries m tags, e.type = 1 → e.addr + e.len < 2 ^ 64

/-- The buffer lies in the kernel image below 4 GiB, and the loader put the block elsewhere. -/
structure Mb2Placed (m : Memory) (mb2Addr buffer kernelEnd : ℕ) : Prop where
  apart : mb2Addr + m.load32 mb2Addr ≤ buffer ∨ buffer + sizeofMemoryMap * mmapBufferLength ≤ mb2Addr
  image : buffer + sizeofMemoryMap * mmapBufferLength ≤ kernelEnd
  low : kernelEnd < 2 ^ 32

/-- `pmm_init` gets through, and the walks of `pmm_init` and `kernel_main` visit exactly these
entries. -/
structure WalksVisit (m : Memory) (mbd : MultibootInfo) (mbdStart kernelEnd : ℕ)
    (entries : List MemoryMap) : Prop where
  accepts : ∃ t, PmmAccepts { mem := m } mbd mbdStart kernelEnd t
  scan : VisitsMap (pmmInitScan m mbd.mmapEnd) (fun _ => m) Prod.fst (mbd.mmapAddr, 0) entries
  release : ∃ top, Returns (pmmInitScan m mbd.mmapEnd) (mbd.mmapAddr, 0) (.ok top) ∧
    VisitsMap (pmmInitRelease mbd.mmapEnd) (fun s => s.1.mem) Prod.snd
      (pmmInitPlace { mem := m } top kernelEnd, mbd.mmapAddr) entries
  ram : ∀ t, PmmAccepts { mem := m } mbd mbdStart kernelEnd t →
    VisitsMap (ramBody t.mem mbd.mmapEnd) (fun _ => t.mem) Prod.fst (mbd.mmapAddr, 0) entries

section Walks

variable {m : Memory} {mbd : MultibootInfo} {kernelEnd : ℕ} {entries : List MemoryMap}

/-- Every map inside the kernel image is visited by all walks. -/
theorem walksVisit_of_map (mbdStart : ℕ) (map : MapEntries m mbd.mmapEnd mbd.mmapAddr entries)
    (image : mbd.mmapEnd ≤ kernelEnd) (noWrap : ∀ e ∈ entries, e.NoWrap) :
    WalksVisit m mbd mbdStart kernelEnd entries := by
  have small : mbd.mmapEnd < 2 ^ 32 := Nat.mod_lt _ (by decide)
  have apart (query : ℕ) (_ : mbd.mmapAddr ≤ query) (upper : query < mbd.mmapEnd) :
      query < kernelEnd ∨ kernelEnd + pmmBitmapSizeOf (availableTop 0 entries) ≤ query :=
    Or.inl (Nat.lt_of_lt_of_le upper image)
  have scanned : Returns (pmmInitScan m mbd.mmapEnd) (mbd.mmapAddr, 0) (.ok (availableTop 0 entries)) :=
    (pmmInitScan_returns_iff map small).mpr ⟨noWrap, rfl⟩
  have released : VisitsMap (pmmInitRelease mbd.mmapEnd) (fun s => s.1.mem) Prod.snd
      (pmmInitPlace { mem := m } (availableTop 0 entries) kernelEnd, mbd.mmapAddr) entries := by
    refine pmmInitRelease_visits map small (fun query _ upper => ?_) fun query _ upper => Or.inl ?_
    · exact Memory.fill_apply_of_outside m _ (Or.inl (Nat.lt_of_lt_of_le upper image))
    · exact Nat.lt_of_lt_of_le upper image
  refine ⟨?_, pmmInitScan_visits map small noWrap 0, ⟨_, scanned, released⟩, fun t accepts => ?_⟩
  · cases hasMap : mbd.hasMemMap with
    | true => exact pmmInit_accepts hasMap map apart noWrap
    | false => exact ⟨_, 0, by simp only [pmmInit, hasMap, Bool.false_eq_true, if_false]; rfl⟩
  · have kept : MapEntries t.mem mbd.mmapEnd mbd.mmapAddr entries := by
      cases hasMap : mbd.hasMemMap with
      | true =>
        obtain ⟨_, initialized⟩ := accepts.initialized hasMap map apart
        exact map.congr fun query _ upper =>
          initialized.outside query (Or.inl (Nat.lt_of_lt_of_le upper image))
      | false =>
        obtain ⟨fuel, ok⟩ := accepts
        simp only [pmmInit, hasMap, Bool.false_eq_true, if_false, Option.some.injEq, Except.ok.injEq] at ok
        rw [← ok]
        exact map
    exact ramBody_visits kept small 0

end Walks

/-- The conversion of every well-formed block returns; it leaves the information that the tags
determine and the first 128 entries of all memory maps, and the walks of the kernel visit exactly
these. -/
theorem convertMb2ToMb1_visits {m : Memory} {mb2Addr buffer kernelEnd : ℕ} {tags : List ℕ}
    (block : Mb2Block m mb2Addr tags) (placed : Mb2Placed m mb2Addr buffer kernelEnd) :
    (∃ c, Mb2Converts m mb2Addr buffer c) ∧ ∀ c, Mb2Converts m mb2Addr buffer c →
      c.info = mb2Info m buffer tags ∧ Filled m buffer c ((mb2Entries m tags).take 128) ∧
        ∀ mbdStart, WalksVisit c.mem c.info mbdStart kernelEnd ((mb2Entries m tags).take 128) := by
  obtain ⟨apart, image, low⟩ := placed
  simp only [mmapBufferLength] at apart image
  have total := m.load32_lt mb2Addr
  obtain ⟨c, ⟨fuel, returns⟩, converted⟩ := mb2TagBody_returns (by omega) block.list
    (.start m buffer) (by omega) (by omega)
  have conversion (fuel : ℕ) : convertMb2ToMb1 fuel m mb2Addr buffer =
      loop (mb2TagBody buffer (mb2Addr + m.load32 mb2Addr)) fuel ({ mem := m }, mb2Addr + 8) :=
    if_neg block.present
  refine ⟨⟨c, fuel, (conversion fuel).trans returns⟩, ?_⟩
  rintro c' ⟨fuel', done⟩
  obtain rfl : c = c' := Except.ok.inj
    (Returns.unique ⟨fuel, returns⟩ ⟨fuel', (conversion fuel').symm.trans done⟩)
  rw [List.nil_append] at converted
  refine ⟨converted.info, converted.filled, fun mbdStart => walksVisit_of_map mbdStart
    (converted.map (by omega)) ?_ fun e member available => ?_⟩
  · have ending : c.info.mmapEnd ≤ buffer + sizeofMemoryMap * 128 := by
      apply Nat.le_trans (Nat.mod_le _ _)
      simp only [converted.info, mb2Info, mb2Last_const, sizeofMemoryMap]
      split <;> omega
    omega
  · have fits := block.noWrap e (List.mem_of_mem_take member) available
    rw [Nat.mod_eq_of_lt fits]
    exact Nat.le_add_right _ _

/-- The two entries of the small machine, as a loader passes them: a block with a basic-memory tag, a
memory map, the name of the loader and the end tag. -/
def sampleWords : List ℕ :=
  [112, 0, 4, 16, 639, 130048, 6, 64, 24, 0, 0, 0, 0x9FC00, 0, 1, 0, 0x100000, 0, 0x7F00000, 0, 1, 0,
    2, 13, 0x42555247, 0, 0, 8]

def sampleBlock : Memory := fun query =>
  BitVec.ofNat 8 (sampleWords.getD ((query - 0x10000) / 4) 0 / 256 ^ ((query - 0x10000) % 4))

theorem sampleBlock_tags : Mb2Tags sampleBlock 0x10070 0x10008 [0x10008, 0x10018, 0x10058] := by
  refine .cons_at 0x10018 (by decide) (by decide) (by decide) (by decide) ?_
  refine .cons_at 0x10058 (by decide) (by decide) (by decide) (by decide) ?_
  refine .cons_at 0x10068 (by decide) (by decide) (by decide) (by decide) ?_
  exact .nil (by decide) (by decide)

theorem convertMb2ToMb1_visits_sample :
    mb2Entries sampleBlock [0x10008, 0x10018, 0x10058] = [lowMemory, highMemory] ∧
      ∃ c, Mb2Converts sampleBlock 0x10000 0x150000 c ∧ c.info.memUpper = 130048 ∧
        WalksVisit c.mem c.info 0x14F000 0x200000
          ((mb2Entries sampleBlock [0x10008, 0x10018, 0x10058]).take 128) := by
  have block : Mb2Block sampleBlock 0x10000 [0x10008, 0x10018, 0x10058] :=
    ⟨by decide, sampleBlock_tags, by decide⟩
  have placed : Mb2Placed sampleBlock 0x10000 0x150000 0x200000 := ⟨by decide, by decide, by decide⟩
  obtain ⟨⟨c, converts⟩, result⟩ := convertMb2ToMb1_visits block placed
  obtain ⟨info, _, visits⟩ := result c converts
  exact ⟨by decide, c, converts, by rw [info]; decide, visits 0x14F000⟩

end RaryOS.Soundness
