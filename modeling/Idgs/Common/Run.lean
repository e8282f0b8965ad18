import Mathlib.Data.List.Basic

/-!
# Runs of executable transition systems

A system is a partial step function `step : σ → ℓ → Option σ`: the label names the step taken,
`none` says that it is not possible in the state. `Reaches` collects the states of the runs whose
steps all meet a guard, so that a property of *every* run and a property of the runs that avoid some
kind of step are instances of one notion, and `replay` executes a list of labels.
-/

namespace Idgs.Common

variable {σ ℓ : Type*}

/-- States reached from `s₀` by steps that all meet `guard` in the state they are taken in. -/
inductive Reaches (step : σ → ℓ → Option σ) (guard : σ → ℓ → Prop) (s₀ : σ) : σ → Prop
  | refl : Reaches step guard s₀ s₀
  | tail {s s' : σ} (a : ℓ) : Reaches step guard s₀ s → guard s a → step s a = some s' →
      Reaches step guard s₀ s'

/-- The guard that allows every step. -/
def anyStep : σ → ℓ → Prop := fun _ _ => True

section Invariants

variable {step : σ → ℓ → Option σ} {guard : σ → ℓ → Prop} {s₀ s : σ}

section

variable (h : Reaches step guard s₀ s)

include h

/-- A property of the first state that every guarded step keeps holds in every state of the run. -/
theorem Reaches.invariant {P : σ → Prop} (h₀ : P s₀)
    (hstep : ∀ s a s', P s → guard s a → step s a = some s' → P s') : P s := by
  induction h with
  | refl => exact h₀
  | tail a _ hg hs ih => exact hstep _ a _ ih hg hs

/-- Fewer restrictions on the steps allow more runs. -/
theorem Reaches.mono {guard' : σ → ℓ → Prop}
    (himp : ∀ s a, guard s a → guard' s a) : Reaches step guard' s₀ s := by
  induction h with
  | refl => exact .refl
  | tail a _ hg hs ih => exact .tail a ih (himp _ _ hg) hs

/-- A map of states and steps takes runs to runs. -/
theorem Reaches.map {σ' ℓ' : Type*} {step' : σ' → ℓ' → Option σ'} {guard' : σ' → ℓ' → Prop}
    (f : σ → σ') (g : ℓ → ℓ')
    (hstep : ∀ s a s', guard s a → step s a = some s' →
      guard' (f s) (g a) ∧ step' (f s) (g a) = some (f s')) :
    Reaches step' guard' (f s₀) (f s) := by
  induction h with
  | refl => exact .refl
  | tail a _ hg hs ih =>
    obtain ⟨hg', hs'⟩ := hstep _ a _ hg hs
    exact .tail (g a) ih hg' hs'

/-- Runs compose. -/
theorem Reaches.trans {s' : σ} (h' : Reaches step guard s s') :
    Reaches step guard s₀ s' := by
  induction h' with
  | refl => exact h
  | tail a _ hg hs ih => exact .tail a ih hg hs

end

end Invariants

/-! ## Executing a list of steps -/

/-- Execute the labels in order; `none` when one of the steps is impossible or breaks the guard. -/
def replay (step : σ → ℓ → Option σ) (guard : σ → ℓ → Prop) [∀ s a, Decidable (guard s a)] :
    σ → List ℓ → Option σ
  | s, [] => some s
  | s, a :: as =>
    if guard s a then
      match step s a with
      | some s' => replay step guard s' as
      | none => none
    else none

/-- A successful execution is a run. -/
theorem reaches_of_replay {step : σ → ℓ → Option σ} {guard : σ → ℓ → Prop}
    [∀ s a, Decidable (guard s a)] {s s' : σ} {as : List ℓ}
    (h : replay step guard s as = some s') : Reaches step guard s s' := by
  induction as generalizing s with
  | nil =>
    obtain rfl : s = s' := by simpa [replay] using h
    exact .refl
  | cons a as ih =>
    rw [replay] at h
    split at h
    · rename_i hg
      split at h
      · rename_i s₁ hs
        exact (Reaches.tail a .refl hg hs).trans (ih h)
      · cases h
    · cases h

instance (s : σ) (a : ℓ) : Decidable (anyStep s a) := inferInstanceAs (Decidable True)

end Idgs.Common
