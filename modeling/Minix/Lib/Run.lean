import Mathlib.Logic.Basic
import Minix.Lib.Literals

/-!
# Runs of a partial step function

A system is a step function that may fail to return, with a guard that says which
calls its environment makes. What is reachable is what finitely many guarded
steps produce; an invariant is shown once for the start and once for a step.
-/

namespace Transition

variable {σ ι : Type*}

/-- The states that guarded steps reach from a start state. -/
inductive Reach (step : σ → ι → Option σ) (guard : σ → ι → Prop) (start : σ → Prop) : σ → Prop
  | init {s : σ} : start s → Reach step guard start s
  | next {s s' : σ} {i : ι} : Reach step guard start s → guard s i → step s i = some s' →
      Reach step guard start s'

/-- A property of the start states that every guarded step keeps holds wherever a run leads. -/
theorem Reach.invariant {step : σ → ι → Option σ} {guard : σ → ι → Prop} {start : σ → Prop}
    (inv : σ → Prop) (h₀ : ∀ s, start s → inv s)
    (hstep : ∀ s i s', inv s → guard s i → step s i = some s' → inv s') {s : σ}
    (hr : Reach step guard start s) : inv s := by
  induction hr with
  | init hs => exact h₀ _ hs
  | next _ hg he ih => exact hstep _ _ _ ih hg he

/-- A weaker guard and more start states reach at least as much. -/
theorem Reach.mono {step : σ → ι → Option σ} {guard guard' : σ → ι → Prop}
    {start start' : σ → Prop} (hg : ∀ s i, guard s i → guard' s i)
    (hs : ∀ s, start s → start' s) {s : σ} (hr : Reach step guard start s) :
    Reach step guard' start' s := by
  induction hr with
  | init h => exact .init (hs _ h)
  | next _ h he ih => exact .next ih (hg _ _ h) he

/-- Run a list of calls, stopping at one that the guard excludes or that does not return. -/
def run (step : σ → ι → Option σ) (guard : σ → ι → Prop) [∀ s i, Decidable (guard s i)] :
    σ → List ι → Option σ
  | s, [] => some s
  | s, i :: l => if guard s i then (step s i).bind fun s' => run step guard s' l else none

/-- What a run computes is reachable. -/
theorem Reach.of_run {step : σ → ι → Option σ} {guard : σ → ι → Prop}
    [∀ s i, Decidable (guard s i)] {start : σ → Prop} {s s' : σ} {l : List ι}
    (hr : Reach step guard start s) (he : run step guard s l = some s') :
    Reach step guard start s' := by
  induction l generalizing s with
  | nil => exact Option.some.inj he ▸ hr
  | cons i l ih =>
    rw [run] at he
    split at he
    · obtain ⟨s₁, h₁, he⟩ := Option.bind_eq_some_iff.mp he
      exact ih (hr.next ‹_› h₁) he
    · cases he

end Transition
