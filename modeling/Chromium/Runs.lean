import Mathlib.Logic.Relation
import Mathlib.Data.List.Basic
import Mathlib.Data.List.Induction

/-!
# Labelled runs

A run is a finite sequence of labelled steps of a transition relation. The
induction over a run is packaged once: an invariant that holds at the start and
is kept by every step holds in every state of the run.
-/
namespace Chromium.Runs

variable {σ α : Type*}

/-- `Reaches step s as t`: the labels `as`, in order, lead from `s` to `t`. -/
inductive Reaches (step : σ → α → σ → Prop) (s : σ) : List α → σ → Prop
  | refl : Reaches step s [] s
  | snoc {as : List α} {t u : σ} {a : α} :
      Reaches step s as t → step t a u → Reaches step s (as ++ [a]) u

/-- The invariant rule: an initial fact kept by each step holds after each run. -/
theorem Reaches.invariant {step : σ → α → σ → Prop} {s t : σ} {as : List α}
    (h : Reaches step s as t) (I : σ → Prop) (hinit : I s)
    (hstep : ∀ t a u, I t → step t a u → I u) : I t := by
  induction h with
  | refl => exact hinit
  | snoc _ hs ih => exact hstep _ _ _ ih hs

/-- A run that begins with a step. -/
theorem Reaches.cons {step : σ → α → σ → Prop} {s t u : σ} {a : α} {as : List α}
    (hstep : step s a t) (h : Reaches step t as u) : Reaches step s (a :: as) u := by
  induction h with
  | refl => exact .snoc .refl hstep
  | snoc _ hs ih => exact .snoc ih hs

/-- A computed sequence of steps is a run. -/
theorem Reaches.of_foldlM {step : σ → α → σ → Prop} {f : σ → α → Option σ}
    (hf : ∀ s a t, f s a = some t → step s a t) {s t : σ} {as : List α}
    (h : as.foldlM f s = some t) : Reaches step s as t := by
  induction as using List.reverseRecOn generalizing t with
  | nil =>
    cases h
    exact .refl
  | append_singleton as a ih =>
    rw [List.foldlM_append] at h
    obtain ⟨u, hu, ha⟩ := Option.bind_eq_some_iff.mp h
    rw [List.foldlM_cons] at ha
    obtain ⟨t', ht, hnil⟩ := Option.bind_eq_some_iff.mp ha
    cases hnil
    exact .snoc (ih hu) (hf u a t ht)

end Chromium.Runs
