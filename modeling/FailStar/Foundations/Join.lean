import Mathlib.Tactic

/-! # Joins and groups

A join of two tables, and sums over its groups. If the key of the groups is a key of the first table, the group
of a row is what the row is joined with, and the sums over all groups count each row of the second table as often
as it is joined.

* **`joinOn`** — the join; **`filter_joinOn`** — the group of a row.
* **`sum_map_countP`** — the sums over the groups. -/

namespace FailStar

section Join

variable {α β κ : Type*}

/-- `xs JOIN ys ON _`. -/
def joinOn (xs : List α) (ys : List β) (on : α → β → Bool) : List (α × β) :=
  xs.flatMap fun x => (ys.filter (on x)).map fun y => (x, y)

variable {xs : List α} {ys : List β} {on : α → β → Bool}

@[simp] theorem joinOn_nil : joinOn [] ys on = [] := rfl

@[simp] theorem joinOn_cons (x : α) (xs : List α) :
    joinOn (x :: xs) ys on = (ys.filter (on x)).map (fun y => (x, y)) ++ joinOn xs ys on := rfl

theorem mem_joinOn {z : α × β} : z ∈ joinOn xs ys on ↔ z.1 ∈ xs ∧ z.2 ∈ ys ∧ on z.1 z.2 = true := by
  obtain ⟨x, y⟩ := z
  simp [joinOn]

/-- **The group of a row**, if the key of the groups is a key of the first table. -/
theorem filter_joinOn [DecidableEq κ] {key : α → κ} (hkey : (xs.map key).Nodup) {x : α} (hx : x ∈ xs) :
    ((joinOn xs ys on).filter fun z => key z.1 = key x) = (ys.filter (on x)).map fun y => (x, y) := by
  induction xs with
  | nil => exact absurd hx List.not_mem_nil
  | cons x' xs ih =>
    rw [List.map_cons, List.nodup_cons] at hkey
    rw [joinOn_cons, List.filter_append]
    rcases List.mem_cons.mp hx with rfl | hx
    · have hown : ((ys.filter (on x)).map fun y => (x, y)).filter (fun z => key z.1 = key x) =
          (ys.filter (on x)).map fun y => (x, y) :=
        List.filter_eq_self.mpr (List.forall_mem_map.mpr fun _ _ => decide_eq_true rfl)
      have hothers : (joinOn xs ys on).filter (fun z => key z.1 = key x) = [] := by
        refine List.filter_eq_nil_iff.mpr fun z hz hsame => hkey.1 ?_
        rw [← of_decide_eq_true hsame]
        exact List.mem_map_of_mem (mem_joinOn.mp hz).1
      rw [hown, hothers, List.append_nil]
    · have hne : key x' ≠ key x := fun h => hkey.1 (h ▸ List.mem_map_of_mem hx)
      have hnone : ((ys.filter (on x')).map fun y => (x', y)).filter (fun z => key z.1 = key x) = [] :=
        List.filter_eq_nil_iff.mpr (List.forall_mem_map.mpr fun _ _ hsame => hne (of_decide_eq_true hsame))
      rw [hnone, List.nil_append, ih hkey.2 hx]

theorem sum_map_filter (f : β → ℕ) (p : β → Bool) (ys : List β) :
    ((ys.filter p).map f).sum = (ys.map fun y => f y * (p y).toNat).sum := by
  induction ys with
  | nil => rfl
  | cons y ys ih => cases hp : p y <;> simp [hp, ih]

/-- **The groups count each row of the second table as often as it is joined.** -/
theorem sum_map_countP (f : β → ℕ) :
    (xs.map fun x => ((ys.filter (on x)).map f).sum).sum =
      (ys.map fun y => f y * xs.countP fun x => on x y).sum := by
  induction xs with
  | nil => simp
  | cons x xs ih =>
    have hcount : ∀ y, (x :: xs).countP (fun x => on x y) = (on x y).toNat + xs.countP fun x => on x y := by
      intro y
      rw [List.countP_cons, Nat.add_comm]
      cases on x y <;> rfl
    simp only [hcount, Nat.mul_add, List.sum_map_add]
    rw [List.map_cons, List.sum_cons, ih, sum_map_filter]

end Join

end FailStar
