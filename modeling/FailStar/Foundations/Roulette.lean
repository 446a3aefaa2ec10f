import Mathlib.Tactic

/-! # Roulette-wheel selection

A number below the sum of the sizes of some entries picks the entry in whose section of the wheel it lies.

* **`Picks size xs sum pos i x`** — the number `pos` picks the entry `x` with index `i`, if the wheel begins
  at `sum`; at most one entry is picked (`Picks.unique`).
* **`pick`** — the naive search: iterate over all entries and sum up their sizes until the sum exceeds the
  number. It finds the picked entry (`pick_eq_some_iff`).
* **`Picks.append_left`**, **`Picks.append_right`** — picking from a wheel that is made of two parts. -/

namespace FailStar

variable {α : Type*} {size : α → ℕ} {xs ys : List α} {x y : α} {sum pos i j : ℕ}

/-- The sum of the sizes. -/
def totalSize (size : α → ℕ) (xs : List α) : ℕ := (xs.map size).sum

@[simp] theorem totalSize_nil (size : α → ℕ) : totalSize size [] = 0 := rfl

@[simp] theorem totalSize_cons (size : α → ℕ) (x : α) (xs : List α) :
    totalSize size (x :: xs) = size x + totalSize size xs := List.sum_cons

@[simp] theorem totalSize_append (size : α → ℕ) (xs ys : List α) :
    totalSize size (xs ++ ys) = totalSize size xs + totalSize size ys := by
  unfold totalSize
  rw [List.map_append, List.sum_append]

theorem totalSize_concat (size : α → ℕ) (xs : List α) (x : α) :
    totalSize size (xs ++ [x]) = totalSize size xs + size x := by
  simp

/-- **The number `pos` picks the entry `x`** with index `i`. -/
structure Picks (size : α → ℕ) (xs : List α) (sum pos i : ℕ) (x : α) : Prop where
  getElem : xs[i]? = some x
  le : sum + totalSize size (xs.take i) ≤ pos
  lt : pos < sum + totalSize size (xs.take (i + 1))

theorem picks_head (hle : sum ≤ pos) (hlt : pos < sum + size x) : Picks size (x :: xs) sum pos 0 x := by
  refine ⟨rfl, ?_, ?_⟩
  · simpa using hle
  · simpa using hlt

theorem Picks.cons (h : Picks size xs (sum + size y) pos i x) : Picks size (y :: xs) sum pos (i + 1) x := by
  refine ⟨h.getElem, ?_, ?_⟩
  · have := h.le
    simp only [List.take_succ_cons, totalSize_cons]
    omega
  · have := h.lt
    simp only [List.take_succ_cons, totalSize_cons]
    omega

theorem Picks.lt_length (h : Picks size xs sum pos i x) : i < xs.length := by
  have hget := h.getElem
  by_contra hge
  rw [List.getElem?_eq_none (Nat.not_lt.mp hge)] at hget
  cases hget

theorem Picks.append_left (h : Picks size xs sum pos i x) (ys : List α) : Picks size (xs ++ ys) sum pos i x := by
  have hlt := h.lt_length
  refine ⟨?_, ?_, ?_⟩
  · rw [List.getElem?_append_left hlt]
    exact h.getElem
  · rw [List.take_append_of_le_length hlt.le]
    exact h.le
  · rw [List.take_append_of_le_length hlt]
    exact h.lt

theorem Picks.append_right (h : Picks size ys (sum + totalSize size xs) pos i x) :
    Picks size (xs ++ ys) sum pos (xs.length + i) x := by
  have hle := h.le
  have hlt := h.lt
  refine ⟨?_, ?_, ?_⟩
  · rw [List.getElem?_append_right (Nat.le_add_right _ _), Nat.add_sub_cancel_left]
    exact h.getElem
  · rw [List.take_length_add_append, totalSize_append]
    omega
  · rw [Nat.add_assoc, List.take_length_add_append, totalSize_append]
    omega

theorem totalSize_take_le (size : α → ℕ) (xs : List α) (h : i ≤ j) :
    totalSize size (xs.take i) ≤ totalSize size (xs.take j) := by
  obtain ⟨rest, hrest⟩ := List.take_prefix_take_left h
  rw [← hrest, totalSize_append]
  exact Nat.le_add_right _ _

/-- **At most one entry is picked.** -/
theorem Picks.unique (h : Picks size xs sum pos i x) (h' : Picks size xs sum pos j y) : j = i ∧ y = x := by
  have hij : j = i := by
    rcases Nat.lt_trichotomy j i with hlt | heq | hgt
    · have := totalSize_take_le size xs (show j + 1 ≤ i from hlt)
      have := h.le
      have := h'.lt
      omega
    · exact heq
    · have := totalSize_take_le size xs (show i + 1 ≤ j from hgt)
      have := h.lt
      have := h'.le
      omega
  subst hij
  exact ⟨rfl, Option.some.inj (h'.getElem.symm.trans h.getElem)⟩

/-- **The naive search.** -/
def pick (size : α → ℕ) : List α → ℕ → ℕ → Option (ℕ × α)
  | [], _, _ => none
  | x :: xs, sum, pos =>
    if pos < sum + size x then some (0, x)
    else (pick size xs (sum + size x) pos).map fun r => (r.1 + 1, r.2)

/-- A number on the wheel picks an entry, which the naive search finds. -/
theorem exists_pick (hle : sum ≤ pos) (hlt : pos < sum + totalSize size xs) :
    ∃ i x, pick size xs sum pos = some (i, x) ∧ Picks size xs sum pos i x := by
  induction xs generalizing sum with
  | nil =>
    rw [totalSize_nil] at hlt
    omega
  | cons y ys ih =>
    rw [totalSize_cons] at hlt
    unfold pick
    by_cases hy : pos < sum + size y
    · rw [if_pos hy]
      exact ⟨0, y, rfl, picks_head hle hy⟩
    · obtain ⟨i, x, hpick, hpicks⟩ := ih (Nat.not_lt.mp hy) (by omega)
      rw [if_neg hy, hpick]
      exact ⟨i + 1, x, rfl, hpicks.cons⟩

/-- **The naive search finds the picked entry.** -/
theorem pick_eq_some_iff (hle : sum ≤ pos) (hlt : pos < sum + totalSize size xs) :
    pick size xs sum pos = some (i, x) ↔ Picks size xs sum pos i x := by
  obtain ⟨j, y, hpick, hpicks⟩ := exists_pick hle hlt
  rw [hpick]
  constructor
  · intro heq
    obtain ⟨rfl, rfl⟩ := Prod.mk.inj (Option.some.inj heq)
    exact hpicks
  · intro h
    obtain ⟨rfl, rfl⟩ := h.unique hpicks
    rfl

theorem totalSize_eraseIdx (h : xs[i]? = some x) :
    totalSize size (xs.eraseIdx i) + size x = totalSize size xs := by
  induction xs generalizing i with
  | nil => cases h
  | cons y ys ih =>
    cases i with
    | zero =>
      obtain rfl : y = x := Option.some.inj h
      rw [List.eraseIdx_cons_zero, totalSize_cons]
      exact Nat.add_comm _ _
    | succ i =>
      rw [List.eraseIdx_cons_succ, totalSize_cons, totalSize_cons, Nat.add_assoc, ih h]

theorem totalSize_congr {size' : α → ℕ} (h : ∀ x ∈ xs, size x = size' x) :
    totalSize size xs = totalSize size' xs :=
  congrArg List.sum (List.map_congr_left h)

theorem totalSize_flatMap {β : Type*} (f : β → List α) (ys : List β) :
    totalSize size (ys.flatMap f) = totalSize (fun y => totalSize size (f y)) ys := by
  induction ys with
  | nil => rfl
  | cons y ys ih => rw [List.flatMap_cons, totalSize_append, totalSize_cons, ih]

theorem le_totalSize (hx : x ∈ xs) : size x ≤ totalSize size xs :=
  List.single_le_sum (by simp) _ (List.mem_map_of_mem hx)

theorem eq_nil_of_totalSize_eq_zero (hpos : ∀ x ∈ xs, 0 < size x) (h : totalSize size xs = 0) : xs = [] := by
  refine List.eq_nil_iff_forall_not_mem.mpr fun x hx => ?_
  have hle : size x ≤ totalSize size xs := le_totalSize hx
  have := hpos x hx
  omega

end FailStar
