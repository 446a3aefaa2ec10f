import Mathlib.Tactic

/-! # Delayed operations

An operation produces output from a state and from an environment that changes on its own. Delaying operations in
a queue keeps their order, so that the states are the same; but a delayed operation sees a later environment.

* **`emit`** — the output of a sequence of operations in one environment.
* **`emit_eq_iff`** — two environments yield the same output exactly if they do so for every operation.
* **`emit_window`** — operations that are delayed over a change of the environment. -/

namespace FailStar

variable {σ α ε β : Type*} (next : σ → α → σ) (out : ε → σ → α → List β)

/-- **The output of a sequence of operations** in the environment `e`. -/
def emit (e : ε) : σ → List α → List β
  | _, [] => []
  | s, a :: as => out e s a ++ emit e (next s a) as

variable {next out}

theorem emit_append (e : ε) (s : σ) (as bs : List α) :
    emit next out e s (as ++ bs) = emit next out e s as ++ emit next out e (as.foldl next s) bs := by
  induction as generalizing s with
  | nil => rfl
  | cons a as ih =>
    rw [List.cons_append, emit, ih, emit, List.append_assoc]
    rfl

section Compare

variable (hlen : ∀ e e' s a, (out e s a).length = (out e' s a).length)

include hlen

theorem length_emit (e e' : ε) (s : σ) (as : List α) :
    (emit next out e s as).length = (emit next out e' s as).length := by
  induction as generalizing s with
  | nil => rfl
  | cons a as ih => rw [emit, emit, List.length_append, List.length_append, hlen e e' s a, ih]

/-- **Two environments yield the same output** exactly if they do so for every operation, in the state it
meets. -/
theorem emit_eq_iff (e e' : ε) (s : σ) (as : List α) :
    emit next out e s as = emit next out e' s as ↔
      ∀ front a back, as = front ++ a :: back →
        out e (front.foldl next s) a = out e' (front.foldl next s) a := by
  induction as generalizing s with
  | nil => simp [emit]
  | cons a as ih =>
    rw [emit, emit]
    constructor
    · intro h front b back hsplit
      obtain ⟨hhead, htail⟩ := List.append_inj h (hlen e e' s a)
      cases front with
      | nil =>
        obtain ⟨rfl, -⟩ := List.cons.inj hsplit
        exact hhead
      | cons a' front =>
        obtain ⟨rfl, hrest⟩ := List.cons.inj hsplit
        exact (ih (next s a)).mp htail front b back hrest
    · intro h
      have hhead : out e s a = out e' s a := h [] a as rfl
      rw [hhead, (ih (next s a)).mpr]
      intro front b back hsplit
      exact h (a :: front) b back (by rw [hsplit]; rfl)

/-- **Operations that are delayed over a change of the environment.** The environment changes from `e` to `e'`
behind the operations `xs ++ ys`, but only `xs` have been performed by then. The output is the same exactly if
`ys` do not notice the change. -/
theorem emit_window (e e' : ε) (s : σ) (xs ys zs : List α) :
    emit next out e s xs ++ emit next out e' (xs.foldl next s) (ys ++ zs) =
        emit next out e s (xs ++ ys) ++ emit next out e' ((xs ++ ys).foldl next s) zs ↔
      emit next out e' (xs.foldl next s) ys = emit next out e (xs.foldl next s) ys := by
  rw [emit_append, emit_append, List.append_assoc, List.foldl_append]
  constructor
  · intro h
    exact (List.append_inj (List.append_cancel_left h) (length_emit hlen e' e _ ys)).1
  · intro h
    rw [h]

end Compare

end FailStar
