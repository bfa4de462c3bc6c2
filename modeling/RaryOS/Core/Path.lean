import Mathlib.Tactic.Common

/-! # Finite labelled runs

`Path Step s es t` is a finite run of a labelled transition relation from `s` to `t` that carries
exactly the labels `es`. A step relation may be partial and nondeterministic: what the environment
chooses is part of the label. `Path.invariant` is the only induction over runs that the safety
results need.
-/

namespace RaryOS.Core

variable {σ ε : Type*}

/-- A finite run carrying exactly its labels. -/
inductive Path (Step : σ → ε → σ → Prop) : σ → List ε → σ → Prop
  | nil (s : σ) : Path Step s [] s
  | cons {s mid t : σ} {e : ε} {es : List ε} :
      Step s e mid → Path Step mid es t → Path Step s (e :: es) t

namespace Path

variable {Step : σ → ε → σ → Prop}

/-- Runs compose at their shared endpoint. -/
theorem append {s mid t : σ} {first second : List ε} :
    Path Step s first mid → Path Step mid second t → Path Step s (first ++ second) t
  | .nil _, right => right
  | .cons step rest, right => .cons step (append rest right)

/-- A run may be extended by one step at its end. -/
theorem snoc {s mid t : σ} {es : List ε} {e : ε} (path : Path Step s es mid) (step : Step mid e t) :
    Path Step s (es ++ [e]) t :=
  path.append (.cons step (.nil t))

/-- Induction on a run from its end: the start is fixed. -/
theorem snoc_induction {s t : σ} {es : List ε} (path : Path Step s es t) (P : List ε → σ → Prop)
    (nil : P [] s)
    (snoc : ∀ es mid e t, Path Step s es mid → P es mid → Step mid e t → P (es ++ [e]) t) : P es t := by
  have extend : ∀ {mid t : σ} {done es : List ε}, Path Step mid es t → Path Step s done mid →
      P done mid → P (done ++ es) t := by
    intro mid t done es rest
    induction rest generalizing done with
    | nil =>
      intro _ holds
      rw [List.append_nil]
      exact holds
    | @cons mid next t e es step _ ih =>
      intro before holds
      have grown := ih (before.snoc step) (snoc _ _ _ _ before holds step)
      rwa [List.append_assoc, List.singleton_append] at grown
  exact extend path (.nil s) nil

/-- What every step preserves holds at the end of every run. -/
theorem invariant {s t : σ} {es : List ε} (path : Path Step s es t) (Inv : σ → Prop) (start : Inv s)
    (preserved : ∀ s e t, Inv s → Step s e t → Inv t) : Inv t := by
  induction path with
  | nil => exact start
  | cons step _ ih => exact ih (preserved _ _ _ start step)

/-- The invariant rule for runs whose labels all satisfy a condition. -/
theorem invariant_of_labels {Allowed : ε → Prop} {s t : σ} {es : List ε}
    (path : Path Step s es t) (Inv : σ → Prop) (labels : ∀ e ∈ es, Allowed e) (start : Inv s)
    (preserved : ∀ s e t, Allowed e → Inv s → Step s e t → Inv t) : Inv t := by
  induction path with
  | nil => exact start
  | cons step _ ih =>
    exact ih (fun e member => labels e (List.mem_cons_of_mem _ member))
      (preserved _ _ _ (labels _ List.mem_cons_self) start step)

/-- What is seen of a run whose steps each act on what is seen, as long as an invariant holds. -/
theorem view_foldl {ω : Type*} {s t : σ} {es : List ε} (path : Path Step s es t) (Inv : σ → Prop) (view : σ → ω)
    (act : ω → ε → ω) (start : Inv s) (preserved : ∀ s e t, Inv s → Step s e t → Inv t)
    (seen : ∀ s e t, Inv s → Step s e t → view t = act (view s) e) : view t = es.foldl act (view s) := by
  induction path with
  | nil => rfl
  | cons step _ ih => rw [ih (preserved _ _ _ start step), seen _ _ _ start step, List.foldl_cons]

end Path

end RaryOS.Core
