import RaryOS.Model.Elf
import Mathlib.Tactic.Tauto

/-! # What `elf_load` writes

Each of the two loops writes an interval of offsets, so the addresses written by the whole loader are
those of the `PT_LOAD` segments of an accepted file, whatever the memory held before.
-/

namespace RaryOS.Model

open RaryOS.Core

theorem storeBytes_written (byte : ℕ → BitVec 8) (dst start stop : ℕ) (t : TracedMemory) (x : ℕ) :
    x ∈ (storeBytes byte dst start stop t).written ↔
      x ∈ t.written ∨ ∃ j, start ≤ j ∧ j < stop ∧ x = (dst + j) % 2 ^ 64 := by
  have fold (js : List ℕ) (t : TracedMemory) :
      x ∈ (js.foldl (fun t j => t.store8 ((dst + j) % 2 ^ 64) (byte j)) t).written ↔
        x ∈ t.written ∨ ∃ j ∈ js, x = (dst + j) % 2 ^ 64 := by
    induction js generalizing t with
    | nil => simp
    | cons j js ih =>
      rw [List.foldl_cons, ih, TracedMemory.store8_written, List.mem_cons, List.exists_mem_cons_iff]
      tauto
  rw [storeBytes, fold]
  refine or_congr_right (exists_congr fun j => ?_)
  rw [List.mem_range'_1, ← and_assoc]
  exact and_congr_left fun _ => by omega

/-- A byte of a segment is copied or zeroed. -/
theorem Elf64Phdr.covers_iff (ph : Elf64Phdr) (x : ℕ) :
    ph.Covers x ↔ (∃ j, 0 ≤ j ∧ j < ph.pFilesz ∧ x = (ph.pVaddr + j) % 2 ^ 64) ∨
      ∃ j, ph.pFilesz ≤ j ∧ j < ph.pMemsz ∧ x = (ph.pVaddr + j) % 2 ^ 64 := by
  constructor
  · rintro ⟨j, bound, place⟩
    rcases Nat.lt_or_ge j ph.pFilesz with copied | zeroed
    · exact .inl ⟨j, Nat.zero_le j, copied, place⟩
    · exact .inr ⟨j, zeroed, by omega, place⟩
  · rintro (⟨j, _, bound, place⟩ | ⟨j, _, bound, place⟩)
    · exact ⟨j, by omega, place⟩
    · exact ⟨j, by omega, place⟩

theorem elfLoadSegment_written (file : Memory) (ph : Elf64Phdr) (t : TracedMemory) (x : ℕ) :
    x ∈ (elfLoadSegment file ph t).written ↔
      x ∈ t.written ∨ ph.pType = ptLoad ∧ ph.Covers x := by
  rw [elfLoadSegment]
  split
  · next other => simp only [other, false_and, or_false]
  · next load =>
    rw [not_not] at load
    simp only [storeBytes_written, load, true_and, ph.covers_iff, or_assoc]

/-- `elf_load` writes exactly the bytes of the loaded segments. -/
theorem mem_elfWrites (file m : Memory) (x : ℕ) :
    x ∈ elfWrites file m ↔ ∃ ph ∈ loadSegments file, ph.Covers x := by
  have fold (hdr : Elf64Header) (is : List ℕ) (t : TracedMemory) :
      x ∈ (is.foldl (fun t i => elfLoadSegment file (hdr.phdr file i) t) t).written ↔
        x ∈ t.written ∨ ∃ ph ∈ (is.map (hdr.phdr file)).filter (·.pType = ptLoad), ph.Covers x := by
    induction is generalizing t with
    | nil => simp
    | cons i is ih =>
      rw [List.foldl_cons, ih, elfLoadSegment_written]
      simp only [List.mem_filter, List.map_cons, decide_eq_true_eq, and_assoc,
        List.mem_cons, or_and_right, exists_or, exists_eq_left, or_assoc]
  rw [elfWrites, elfLoad, loadSegments]
  split
  · next e rejected => simp
  · next accepted =>
    rw [fold]
    simp

end RaryOS.Model
