import Mathlib.Tactic

/-! # Guarded reachability of a partial step function

A system is given by a *partial step function* `step : σ → ι → Option σ`: in state `s` the action `l`
is enabled iff `step s l` is `some`. Safety properties of every run are properties of the states such
a function reaches; those of every run whose steps all meet a condition are properties of the states
reached by steps that satisfy a *guard* `ok : σ → ι → Prop` on the state before the step.

* **`ReachableBy step ok s₀ s`** — `s` is reached from `s₀` by guarded steps.
* **`ReachableBy.invariant`** — the induction rule: an invariant that holds initially and survives
  every guarded step holds in every reached state.
* **`runBy`** — the executable counterpart on an explicit list of actions, for concrete runs. -/

namespace FailStar

variable {σ ι : Type*}

/-- **Guarded reachability.** `s` is reached from `s₀` by steps each of which satisfies the guard `ok`
in the state it is taken from. -/
inductive ReachableBy (step : σ → ι → Option σ) (ok : σ → ι → Prop) (s₀ : σ) : σ → Prop
  | refl : ReachableBy step ok s₀ s₀
  | tail {s s' : σ} {l : ι} :
      ReachableBy step ok s₀ s → ok s l → step s l = some s' → ReachableBy step ok s₀ s'

/-- **Reachability**: every step is allowed. -/
abbrev Reachable (step : σ → ι → Option σ) (s₀ : σ) : σ → Prop :=
  ReachableBy step (fun _ _ => True) s₀

variable {step : σ → ι → Option σ} {ok : σ → ι → Prop} {s₀ s s' : σ}

/-- **The invariant rule.** What holds initially and is kept by every guarded step holds in every
state reached. -/
theorem ReachableBy.invariant {I : σ → Prop} (h : ReachableBy step ok s₀ s) (h₀ : I s₀)
    (hstep : ∀ s l s', I s → ok s l → step s l = some s' → I s') : I s := by
  induction h with
  | refl => exact h₀
  | tail _ hok hs ih => exact hstep _ _ _ ih hok hs

theorem ReachableBy.trans (h : ReachableBy step ok s₀ s) (h' : ReachableBy step ok s s') :
    ReachableBy step ok s₀ s' := by
  induction h' with
  | refl => exact h
  | tail _ hl hs ih => exact ih.tail hl hs

/-- **Run a list of actions**, stopping with `none` at the first one that is disabled or fails the
Boolean guard. -/
def runBy (step : σ → ι → Option σ) (ok : σ → ι → Bool) : σ → List ι → Option σ
  | s, [] => some s
  | s, l :: ls => if ok s l then (step s l).bind (fun s' => runBy step ok s' ls) else none

/-- **Run a list of actions** without a guard. -/
def run (step : σ → ι → Option σ) (s : σ) (ls : List ι) : Option σ :=
  runBy step (fun _ _ => true) s ls

/-- A concrete guarded run reaches its last state. -/
theorem reachableBy_of_runBy [∀ s l, Decidable (ok s l)] (ls : List ι)
    (h : runBy step (fun s l => decide (ok s l)) s₀ ls = some s) : ReachableBy step ok s₀ s := by
  induction ls generalizing s₀ with
  | nil =>
    obtain rfl : s₀ = s := Option.some.inj h
    exact .refl
  | cons l ls ih =>
    rw [runBy] at h
    split at h
    · rename_i hl
      obtain ⟨s₁, hs₁, hrun⟩ := Option.bind_eq_some_iff.mp h
      exact (ReachableBy.refl.tail (of_decide_eq_true hl) hs₁).trans (ih hrun)
    · exact absurd h (by simp)

theorem reachable_of_run (ls : List ι) (h : run step s₀ ls = some s) : Reachable step s₀ s := by
  refine reachableBy_of_runBy ls ?_
  rw [← h, run]
  simp

end FailStar
