import RaryOS.Proofs.ProcessKeys

/-! # One push for each key press

A key is held for a maximal run of consecutive reports that contain its code, in whatever of the six
places. `process_keys` pushes its character once for each such run.
-/

namespace RaryOS.Soundness

open RaryOS.Core RaryOS.Model

/-- From zeroed `prev_keys` on, every key with a character is pushed once for each maximal run of
reports that contain it, within each report the pushes are in its order, and the pushed characters
are what goes into the input buffer. -/
theorem presses_counted {x : Xhci} (zeroed : x.prevKeys = List.replicate 6 0) {reports : List (ℕ → ℕ)}
    (distinct : ∀ report ∈ reports, ((reportKeys report).filter (· ≠ 0)).Nodup) :
    (∀ k, hidKeyToAscii k ≠ 0 → (x.reportPushes reports).flatten.count k =
        maximalRuns (fun i => k ∈ (reports.map reportKeys).getD i []) reports.length) ∧
      List.Forall₂ List.Sublist (x.reportPushes reports) (reports.map reportKeys) ∧
      (reports.foldl Xhci.processReport x).input = pushKeys x.input (x.reportPushes reports).flatten ∧
      (reports.foldl Xhci.processReport x).pushCount =
        x.pushCount + (x.reportPushes reports).flatten.length := by
  refine ⟨fun k mapped => ?_, ?_, Xhci.processReports_effect reports x⟩
  · have nonzero : k ≠ 0 := by
      rintro rfl
      exact mapped rfl
    have absent : k ∉ x.prevKeys := by
      rw [zeroed]
      exact fun member => nonzero (List.eq_of_mem_replicate member)
    rw [Xhci.reportPushes_eq, ← List.length_map reportKeys]
    refine edges_count_eq_maximalRuns mappedKey (decide_eq_true mapped) (fun keys member => ?_) absent
    obtain ⟨report, inside, rfl⟩ := List.mem_map.mp member
    exact count_key_le_one (distinct report inside) nonzero
  · rw [Xhci.reportPushes_eq]
    exact edges_sublist mappedKey _ _

/-- A report with two key codes. -/
def keyReport (first second : ℕ) : ℕ → ℕ := fun i => if i = 2 then first else if i = 3 then second else 0

/-- The key 4 moves to the second place while the key 5 is pressed, is released and pressed again. -/
theorem presses_counted_sample :
    maximalRuns (fun i => 4 ∈ ([keyReport 4 0, keyReport 5 4, keyReport 5 0, keyReport 5 4].map
      reportKeys).getD i []) 4 = 2 := by
  have counted := (@presses_counted { evtRingPhys := 0 } rfl
    [keyReport 4 0, keyReport 5 4, keyReport 5 0, keyReport 5 4] (by decide)).1 4 (by decide)
  exact counted.symm.trans (by decide)

end RaryOS.Soundness
