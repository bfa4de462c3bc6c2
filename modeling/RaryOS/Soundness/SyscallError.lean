import RaryOS.Model.Effect

/-! # How a failed system call looks to the program

`exception_handler` returns the result of the effect and drops its error. So a failure shows only if a
handler also makes the result negative, and the default handlers never do.
-/

namespace RaryOS.Soundness

open RaryOS.Model

section Chain

variable {σ : Type*}

/-- A handler that passes leaves the rest to the others. -/
theorem performWith_passes {fn : EffectHandler σ} {w w₁ : σ} {e e₁ : Effect} {r : ℤ}
    (step : fn w e = some (w₁, e₁, r)) (notHandled : r ≠ effectHandled) (notError : r ≠ effectError)
    (rest : List (EffectHandler σ)) : performWith (fn :: rest) w e = performWith rest w₁ e₁ := by
  simp only [performWith, step, if_neg notHandled, if_neg notError]

theorem performWith_ends {fn : EffectHandler σ} {w w₁ : σ} {e e₁ : Effect} {r : ℤ}
    (step : fn w e = some (w₁, e₁, r)) (ends : r = effectHandled ∨ r = effectError)
    (rest : List (EffectHandler σ)) : performWith (fn :: rest) w e = some (w₁, e₁) := by
  rcases ends with handled | error
  · simp only [performWith, step, if_pos handled]
  · have notHandled : r ≠ effectHandled := by
      rw [error]
      decide
    simp only [performWith, step, if_neg notHandled, if_pos error]

/-- The first handler does not return, ends the search, or passes. -/
theorem performWith_cons {fn : EffectHandler σ} {rest : List (EffectHandler σ)} {w w' : σ} {e e' : Effect}
    (result : performWith (fn :: rest) w e = some (w', e')) :
    (∃ r, fn w e = some (w', e', r) ∧ (r = effectHandled ∨ r = effectError)) ∨
      ∃ w₁ e₁ r, fn w e = some (w₁, e₁, r) ∧ r ≠ effectHandled ∧ r ≠ effectError ∧
        performWith rest w₁ e₁ = some (w', e') := by
  cases step : fn w e with
  | none =>
    simp only [performWith, step] at result
    cases result
  | some outcome =>
    obtain ⟨w₁, e₁, r⟩ := outcome
    rcases em (r = effectHandled ∨ r = effectError) with ends | passes
    · rw [performWith_ends step ends, Option.some.injEq, Prod.mk.injEq] at result
      obtain ⟨rfl, rfl⟩ := result
      exact Or.inl ⟨r, rfl, ends⟩
    · rw [not_or] at passes
      rw [performWith_passes step passes.1 passes.2] at result
      exact Or.inr ⟨w₁, e₁, r, rfl, passes.1, passes.2, result⟩

theorem exceptionHandler_eq {handlers : List (EffectHandler σ)} {w w' : σ} {r : Regs} {e' : Effect}
    (syscall : r.vector = 0x80) (result : effectPerform handlers w r.effect = some (w', e')) :
    exceptionHandler handlers w r = some (w', { r with rax := e'.result }) := by
  simp only [exceptionHandler, if_pos syscall, result]

variable (core : CoreServices σ)

end Chain

end RaryOS.Soundness
