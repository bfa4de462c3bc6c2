import RaryOS.Core.Edges
import RaryOS.Model.Xhci

/-! # Which keys `process_keys` pushes

`process_keys` counts its calls of `input_push`, so a key code was pushed if the counter moved. For a
report these are the codes with a character that the previous report did not have.
-/

namespace RaryOS.Model

open RaryOS.Core

/-- The six key codes of a report. -/
def reportKeys (report : ℕ → ℕ) : List ℕ := (List.range 6).map fun i => report (2 + i)

/-- `hid_key_to_ascii` knows the code. -/
def mappedKey (k : ℕ) : Bool := hidKeyToAscii k ≠ 0

/-- A code that is not zero is at most once in a report whose nonzero codes are distinct. -/
theorem count_key_le_one {keys : List ℕ} (distinct : (keys.filter (· ≠ 0)).Nodup) {k : ℕ}
    (nonzero : k ≠ 0) : keys.count k ≤ 1 := by
  have same : (keys.filter (· ≠ 0)).count k = keys.count k :=
    List.count_filter (decide_eq_true nonzero)
  rw [← same]
  exact List.nodup_iff_count_le_one.mp distinct k

/-- The characters of some key codes go into the buffer. -/
def pushKeys (b : InputBuffer) (keys : List ℕ) : InputBuffer :=
  keys.foldl (fun b k => inputPush b (hidKeyToAscii k)) b

namespace Xhci

/-- The codes, of those given to `processKey` in turn, for which the count of pushes goes up. -/
def countedPushes (x : Xhci) : List ℕ → List ℕ
  | [] => []
  | k :: keys =>
    (if (x.processKey k).pushCount = x.pushCount then [] else [k]) ++ countedPushes (x.processKey k) keys

/-- The key codes that `process_keys(intr_buf)` pushes. -/
def pushedKeys (x : Xhci) : List ℕ := x.countedPushes (reportKeys x.intrBuf)

/-- `process_keys` on a report in the buffer. -/
def processReport (x : Xhci) (report : ℕ → ℕ) : Xhci := { x with intrBuf := report }.processKeys

/-- The key codes pushed for each of some reports. -/
def reportPushes (x : Xhci) : List (ℕ → ℕ) → List (List ℕ)
  | [] => []
  | report :: reports =>
    { x with intrBuf := report }.pushedKeys :: reportPushes (x.processReport report) reports

/-- What looking at key codes does to the driver: the buffer and two counters change. -/
structure KeysEffect (x y : Xhci) (pushed : List ℕ) : Prop where
  input : y.input = pushKeys x.input pushed
  pushCount : y.pushCount = x.pushCount + pushed.length
  intrBuf : y.intrBuf = x.intrBuf
  hidEpNum : y.hidEpNum = x.hidEpNum
  usbActiveSlot : y.usbActiveSlot = x.usbActiveSlot

theorem processKey_effect (x : Xhci) (k : ℕ) :
    KeysEffect x (x.processKey k) (newItems mappedKey x.prevKeys [k]) ∧
      (x.processKey k).prevKeys = x.prevKeys := by
  rw [newItems, List.filter_singleton, processKey]
  by_cases old : k = 0 ∨ k ∈ x.prevKeys
  · have hidden : (mappedKey k && decide (k ∉ x.prevKeys)) = false := by
      rcases old with rfl | seen
      · rfl
      · rw [decide_eq_false (not_not.mpr seen), Bool.and_false]
    rw [if_pos old, hidden]
    exact ⟨⟨rfl, rfl, rfl, rfl, rfl⟩, rfl⟩
  · rw [not_or] at old
    rw [if_neg (not_or.mpr old), decide_eq_true old.2, Bool.and_true, mappedKey]
    simp only
    split
    · next mapped =>
      rw [decide_eq_true mapped]
      exact ⟨⟨rfl, rfl, rfl, rfl, rfl⟩, rfl⟩
    · next unmapped =>
      rw [decide_eq_false unmapped]
      exact ⟨⟨rfl, rfl, rfl, rfl, rfl⟩, rfl⟩

theorem newItems_cons (prev : List ℕ) (k : ℕ) (keys : List ℕ) :
    newItems mappedKey prev (k :: keys) = newItems mappedKey prev [k] ++ newItems mappedKey prev keys := by
  rw [newItems, newItems, newItems, ← List.filter_append, List.singleton_append]

/-- The codes counted are the new ones with a character. -/
theorem processKeys_fold (keys : List ℕ) (x : Xhci) :
    KeysEffect x (keys.foldl processKey x) (newItems mappedKey x.prevKeys keys) ∧
      x.countedPushes keys = newItems mappedKey x.prevKeys keys := by
  induction keys generalizing x with
  | nil => exact ⟨⟨rfl, rfl, rfl, rfl, rfl⟩, rfl⟩
  | cons k keys ih =>
    obtain ⟨first, kept⟩ := processKey_effect x k
    obtain ⟨rest, counted⟩ := ih (x.processKey k)
    rw [kept] at rest counted
    rw [newItems_cons, countedPushes, counted, List.foldl_cons]
    refine ⟨⟨?_, ?_, rest.intrBuf.trans first.intrBuf, rest.hidEpNum.trans first.hidEpNum,
      rest.usbActiveSlot.trans first.usbActiveSlot⟩, ?_⟩
    · rw [rest.input, first.input, pushKeys, pushKeys, pushKeys, List.foldl_append]
    · rw [rest.pushCount, first.pushCount, List.length_append, Nat.add_assoc]
    · congr 1
      rw [first.pushCount, newItems, List.filter_singleton]
      cases mappedKey k && decide (k ∉ x.prevKeys) <;> simp

/-- `process_keys` pushes the new codes with a character, in report order, and remembers the report. -/
theorem processKeys_effect (x : Xhci) :
    KeysEffect x x.processKeys x.pushedKeys ∧ x.processKeys.prevKeys = reportKeys x.intrBuf ∧
      x.pushedKeys = newItems mappedKey x.prevKeys (reportKeys x.intrBuf) := by
  obtain ⟨effect, counted⟩ := processKeys_fold (reportKeys x.intrBuf) x
  rw [pushedKeys, counted]
  exact ⟨⟨effect.input, effect.pushCount, effect.intrBuf, effect.hidEpNum, effect.usbActiveSlot⟩, rfl, rfl⟩

theorem reportPushes_eq (reports : List (ℕ → ℕ)) (x : Xhci) :
    x.reportPushes reports = edges mappedKey x.prevKeys (reports.map reportKeys) := by
  induction reports generalizing x with
  | nil => rfl
  | cons report reports ih =>
    obtain ⟨_, kept, pushed⟩ := processKeys_effect { x with intrBuf := report }
    rw [reportPushes, ih, pushed, processReport, kept, List.map_cons, edges]

/-- What a sequence of reports does to the input buffer. -/
theorem processReports_effect (reports : List (ℕ → ℕ)) (x : Xhci) :
    (reports.foldl processReport x).input = pushKeys x.input (x.reportPushes reports).flatten ∧
      (reports.foldl processReport x).pushCount =
        x.pushCount + (x.reportPushes reports).flatten.length := by
  induction reports generalizing x with
  | nil => exact ⟨rfl, rfl⟩
  | cons report reports ih =>
    obtain ⟨effect, _⟩ := processKeys_effect { x with intrBuf := report }
    obtain ⟨input, pushCount⟩ := ih (x.processReport report)
    rw [List.foldl_cons, reportPushes, List.flatten_cons]
    constructor
    · rw [input, processReport, effect.input, pushKeys, pushKeys, pushKeys, List.foldl_append]
    · rw [pushCount, processReport, effect.pushCount, List.length_append, Nat.add_assoc]

end Xhci

end RaryOS.Model
