import Mathlib.Tactic

/-! # Attempts

An operation that may fail, and leaves a state behind in either case. A caller that stops at a failure only
needs the state of a success. A caller that goes on also needs the state of a failure.

* **`succeeded`** — what a caller sees that stops at a failure.
* **`foldUntil`** — a loop that stops at the first failure; **`foldlM_succeeded`** — seen by such a caller;
  **`foldUntil_keeps`** — its invariants. -/

namespace FailStar

variable {σ α : Type*}

/-- The state of an attempt, if it has succeeded. -/
def succeeded (r : σ × Bool) : Option σ := if r.2 then some r.1 else none

@[simp] theorem succeeded_true (s : σ) : succeeded (s, true) = some s := rfl

@[simp] theorem succeeded_false (s : σ) : succeeded (s, false) = none := rfl

theorem succeeded_eq_some {r : σ × Bool} {s : σ} : succeeded r = some s ↔ r = (s, true) := by
  obtain ⟨s', ok⟩ := r
  cases ok <;> simp

/-- **A loop that stops at the first failure.** -/
def foldUntil (f : σ → α → σ × Bool) : σ → List α → σ × Bool
  | s, [] => (s, true)
  | s, a :: as => if (f s a).2 then foldUntil f (f s a).1 as else ((f s a).1, false)

/-- What the body keeps, the loop keeps. -/
theorem foldUntil_keeps {f : σ → α → σ × Bool} {P : σ → Prop} (h : ∀ s a, P s → P (f s a).1) {s : σ} (hs : P s)
    (as : List α) : P (foldUntil f s as).1 := by
  induction as generalizing s with
  | nil => exact hs
  | cons a as ih =>
    rw [foldUntil]
    split
    · exact ih (h s a hs)
    · exact h s a hs

theorem foldlM_succeeded {f : σ → α → σ × Bool} {g : σ → α → Option σ} (h : ∀ s a, g s a = succeeded (f s a))
    (s : σ) (as : List α) : as.foldlM g s = succeeded (foldUntil f s as) := by
  induction as generalizing s with
  | nil => rfl
  | cons a as ih =>
    rw [List.foldlM_cons, foldUntil, h s a]
    cases hok : (f s a).2 with
    | true =>
      rw [succeeded, hok]
      exact ih _
    | false =>
      rw [succeeded, hok]
      rfl

end FailStar
