import Mathlib.Data.Nat.Init
import Mathlib.Logic.Relation
import Mathlib.Tactic.Common

/-! # While loops that may diverge

A loop body either continues with a new state or stops with a result. `loop` runs a body for a
bounded number of iterations, so it is executable; `Returns` forgets the bound. A body that never
stops has no `Returns` fact at all, so partial and total correctness stay apart: `Returns.invariant`
speaks about a loop that returned, and says nothing about one that does not.
-/

namespace RaryOS.Core

variable {σ α : Type*}

/-- Run the body at most `fuel` times; `none` means that it was still running. -/
def loop (body : σ → σ ⊕ α) : ℕ → σ → Option α
  | 0, _ => none
  | fuel + 1, s =>
    match body s with
    | .inl next => loop body fuel next
    | .inr result => some result

/-- The loop started at `s` stops with `result` after finitely many iterations. -/
def Returns (body : σ → σ ⊕ α) (s : σ) (result : α) : Prop :=
  ∃ fuel, loop body fuel s = some result

/-- The loop passes through the states of the trace, each continuing, and then stops. -/
inductive Walk (body : σ → σ ⊕ α) : σ → List σ → α → Prop
  | stop {s : σ} {result : α} : body s = .inr result → Walk body s [] result
  | step {s next : σ} {trace : List σ} {result : α} : body s = .inl next → Walk body next trace result →
      Walk body s (s :: trace) result

/-- The loop started at `s` comes to the state `t`, whether or not it ever stops. -/
def Reaches (body : σ → σ ⊕ α) : σ → σ → Prop := Relation.ReflTransGen fun s next => body s = .inl next

theorem loop_mono {body : σ → σ ⊕ α} {fuel : ℕ} {s : σ} {result : α}
    (done : loop body fuel s = some result) {more : ℕ} (le : fuel ≤ more) :
    loop body more s = some result := by
  induction fuel generalizing s more with
  | zero => simp only [loop, reduceCtorEq] at done
  | succ fuel ih =>
    obtain ⟨more, rfl⟩ : ∃ k, more = k + 1 := ⟨more - 1, by omega⟩
    simp only [loop] at done ⊢
    cases step : body s with
    | inl next =>
      simp only [step] at done ⊢
      exact ih done (by omega)
    | inr value =>
      simp only [step] at done ⊢
      exact done

theorem Returns.of_stop {body : σ → σ ⊕ α} {s : σ} {result : α} (stop : body s = .inr result) :
    Returns body s result :=
  ⟨1, by simp only [loop, stop]⟩

theorem Returns.of_step {body : σ → σ ⊕ α} {s next : σ} {result : α} (step : body s = .inl next)
    (rest : Returns body next result) : Returns body s result := by
  obtain ⟨fuel, done⟩ := rest
  exact ⟨fuel + 1, by simp only [loop, step, done]⟩

theorem Walk.returns {body : σ → σ ⊕ α} {s : σ} {trace : List σ} {result : α}
    (walk : Walk body s trace result) : Returns body s result := by
  induction walk with
  | stop done => exact .of_stop done
  | step continues _ ih => exact .of_step continues ih

theorem Returns.step_iff {body : σ → σ ⊕ α} {s next : σ} {result : α} (step : body s = .inl next) :
    Returns body s result ↔ Returns body next result := by
  refine ⟨?_, .of_step step⟩
  rintro ⟨_ | fuel, done⟩
  · simp only [loop, reduceCtorEq] at done
  · simp only [loop, step] at done
    exact ⟨fuel, done⟩

theorem Returns.stop_iff {body : σ → σ ⊕ α} {s : σ} {value result : α} (stop : body s = .inr value) :
    Returns body s result ↔ value = result := by
  constructor
  · rintro ⟨_ | fuel, done⟩
    · simp only [loop, reduceCtorEq] at done
    · simpa only [loop, stop, Option.some.injEq] using done
  · rintro rfl
    exact .of_stop stop

/-- A loop has at most one result. -/
theorem Returns.unique {body : σ → σ ⊕ α} {s : σ} {first second : α}
    (left : Returns body s first) (right : Returns body s second) : first = second := by
  obtain ⟨n, left⟩ := left
  obtain ⟨k, right⟩ := right
  have left := loop_mono left (Nat.le_max_left n k)
  have right := loop_mono right (Nat.le_max_right n k)
  exact Option.some.inj (left.symm.trans right)

/-- The invariant rule: what every continuing iteration preserves holds when the loop stops. -/
theorem Returns.invariant {body : σ → σ ⊕ α} {s : σ} {result : α} (returns : Returns body s result)
    (Inv : σ → Prop) (Post : α → Prop) (start : Inv s)
    (continues : ∀ s next, Inv s → body s = .inl next → Inv next)
    (stops : ∀ s value, Inv s → body s = .inr value → Post value) : Post result := by
  obtain ⟨fuel, done⟩ := returns
  induction fuel generalizing s with
  | zero => simp only [loop, reduceCtorEq] at done
  | succ fuel ih =>
    simp only [loop] at done
    cases step : body s with
    | inl next =>
      simp only [step] at done
      exact ih (continues s next start step) done
    | inr value =>
      simp only [step, Option.some.injEq] at done
      exact done ▸ stops s value start step

/-- What every continuing iteration preserves holds in every state the loop comes to. -/
theorem Reaches.invariant {body : σ → σ ⊕ α} {s t : σ} (reaches : Reaches body s t) (Inv : σ → Prop)
    (start : Inv s) (continues : ∀ s next, Inv s → body s = .inl next → Inv next) : Inv t := by
  induction reaches with
  | refl => exact start
  | tail _ step ih => exact continues _ _ ih step

/-- A loop whose measure falls with every iteration stops, after at most that many continuing ones. -/
theorem loop_of_measure {body : σ → σ ⊕ α} (Inv : σ → Prop) (measure : σ → ℕ)
    (continues : ∀ s next, Inv s → body s = .inl next → Inv next ∧ measure next < measure s) {s : σ}
    (start : Inv s) {bound : ℕ} (bounded : measure s ≤ bound) :
    ∃ result, loop body (bound + 1) s = some result := by
  induction bound generalizing s with
  | zero =>
    cases step : body s with
    | inl next =>
      have falls := (continues s next start step).2
      omega
    | inr result => exact ⟨result, by simp only [loop, step]⟩
  | succ bound ih =>
    cases step : body s with
    | inl next =>
      obtain ⟨kept, falls⟩ := continues s next start step
      obtain ⟨result, done⟩ := ih kept (by omega)
      exact ⟨result, by rw [loop, step]; exact done⟩
    | inr result => exact ⟨result, by simp only [loop, step]⟩

/-- A loop stops exactly when it stops from the states it comes to. -/
theorem Reaches.returns_iff {body : σ → σ ⊕ α} {s t : σ} {result : α} (reaches : Reaches body s t) :
    Returns body s result ↔ Returns body t result := by
  induction reaches with
  | refl => rfl
  | tail _ step ih => exact ih.trans (Returns.step_iff step)

end RaryOS.Core
