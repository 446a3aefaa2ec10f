import Mathlib.Tactic

/-! # The first minimum of a list

A loop that runs over a list with the best element so far, and replaces it by every element of *strictly*
smaller costs, ends with the first element of minimal costs. Elements whose costs are not below a limit,
the initial value of the best costs, are never taken.

* **`FirstMin costs limit xs q`** — `q` is that element.
* **`FirstMin.le`**, **`FirstMin.lt_head`** — what its costs are.
* **`firstMin_snoc`**, **`FirstMin.snoc`** — one more iteration of the loop. -/

namespace FailStar

variable {α : Type*} {costs : α → ℕ} {limit : ℕ} {xs : List α} {q x : α}

/-- `q` is the first element of `xs` of minimal costs, and its costs are below the limit. -/
structure FirstMin (costs : α → ℕ) (limit : ℕ) (xs : List α) (q : α) : Prop where
  lt_limit : costs q < limit
  split : ∃ front back, xs = front ++ q :: back ∧ (∀ x ∈ front, costs q < costs x) ∧
    ∀ x ∈ back, costs q ≤ costs x

theorem FirstMin.mem (h : FirstMin costs limit xs q) : q ∈ xs := by
  obtain ⟨front, back, rfl, -, -⟩ := h.split
  simp

theorem FirstMin.le (h : FirstMin costs limit xs q) (hx : x ∈ xs) : costs q ≤ costs x := by
  obtain ⟨front, back, rfl, hfront, hback⟩ := h.split
  rcases List.mem_append.mp hx with hx | hx
  · exact (hfront x hx).le
  · rcases List.mem_cons.mp hx with rfl | hx
    · exact le_rfl
    · exact hback x hx

theorem FirstMin.lt_head (h : FirstMin costs limit (x :: xs) q) (hne : q ≠ x) : costs q < costs x := by
  obtain ⟨front, back, heq, hfront, -⟩ := h.split
  cases front with
  | nil => exact absurd (List.cons.inj heq).1.symm hne
  | cons y front =>
    obtain rfl : x = y := (List.cons.inj heq).1
    exact hfront x List.mem_cons_self

theorem FirstMin.unique {q' : α} (h : FirstMin costs limit xs q) (h' : FirstMin costs limit xs q') : q = q' := by
  obtain ⟨front, back, heq, hfront, hback⟩ := h.split
  obtain ⟨front', back', heq', hfront', hback'⟩ := h'.split
  -- neither lies in the front part of the other
  have hnot : q ∉ front' := fun hmem => (hfront' q hmem).not_ge (h.le h'.mem)
  have hnot' : q' ∉ front := fun hmem => (hfront q' hmem).not_ge (h'.le h.mem)
  rcases List.append_eq_append_iff.mp (heq.symm.trans heq') with ⟨mid, rfl, hmid⟩ | ⟨mid, rfl, hmid⟩
  · cases mid with
    | nil => exact (List.cons.inj hmid).1
    | cons x mid =>
      obtain rfl := (List.cons.inj hmid).1
      exact absurd (by simp) hnot
  · cases mid with
    | nil => exact (List.cons.inj hmid).1.symm
    | cons x mid =>
      obtain rfl := (List.cons.inj hmid).1
      exact absurd (by simp) hnot'

/-- An element that is not cheaper does not replace the best one. -/
theorem FirstMin.snoc (h : FirstMin costs limit xs q) (hx : costs q ≤ costs x) :
    FirstMin costs limit (xs ++ [x]) q := by
  obtain ⟨front, back, rfl, hfront, hback⟩ := h.split
  refine ⟨h.lt_limit, front, back ++ [x], by simp, hfront, fun y hy => ?_⟩
  rcases List.mem_append.mp hy with hy | hy
  · exact hback y hy
  · rwa [List.mem_singleton.mp hy]

/-- An element that is cheaper than all in front of it is the best one. -/
theorem firstMin_snoc (hlimit : costs x < limit) (hx : ∀ y ∈ xs, costs x < costs y) :
    FirstMin costs limit (xs ++ [x]) x :=
  ⟨hlimit, xs, [], rfl, hx, by simp⟩

/-- An element that is cheaper than the best one is the best one. -/
theorem FirstMin.snoc_of_lt (h : FirstMin costs limit xs q) (hx : costs x < costs q) :
    FirstMin costs limit (xs ++ [x]) x :=
  firstMin_snoc (hx.trans h.lt_limit) fun _ hy => hx.trans_le (h.le hy)

end FailStar
