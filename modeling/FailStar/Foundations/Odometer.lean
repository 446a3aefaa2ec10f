import Mathlib.Tactic

/-! # An odometer whose digits have different ranges

The digits of an odometer select one element on each level of a ragged tree: how many elements there are depends
on the digits before. A size function gives the number of elements behind a sequence of digits. The odometer
counts by its last digit; a digit that has reached its range is reset, and the digit before it is advanced.

* **`paths`** — all sequences of digits in range, in lexicographic order: `mem_paths`, `pairwise_paths`.
* **`next`** — the next sequence; **`next_concat`** — as computed from the last digit.
* **`run_paths`** — counting from zero visits every path, if there is always an element to select. -/

namespace FailStar.Odometer

variable {size : List ℕ → ℕ} {k x : ℕ} {p q : List ℕ} {ps : List (List ℕ)}

/-- **The paths** of a tree: all sequences of digits in range. -/
def paths : ℕ → (List ℕ → ℕ) → List (List ℕ)
  | 0, _ => [[]]
  | k + 1, size => (List.range (size [])).flatMap fun x => (paths k fun p => size (x :: p)).map (x :: ·)

/-- All digits are in range. -/
def InRange (size : List ℕ → ℕ) : List ℕ → Prop
  | [] => True
  | x :: p => x < size [] ∧ InRange (fun q => size (x :: q)) p

/-- **The next sequence of digits.** -/
def next (size : List ℕ → ℕ) : List ℕ → Option (List ℕ)
  | [] => none
  | x :: p =>
    match next (fun q => size (x :: q)) p with
    | some q => some (x :: q)
    | none => if x + 1 < size [] then some ((x + 1) :: p.map fun _ => 0) else none

@[simp] theorem paths_zero : paths 0 size = [[]] := rfl

@[simp] theorem inRange_nil : InRange size [] := trivial

@[simp] theorem inRange_cons : InRange size (x :: p) ↔ x < size [] ∧ InRange (fun q => size (x :: q)) p :=
  Iff.rfl

@[simp] theorem next_nil : next size [] = none := rfl

theorem mem_paths : p ∈ paths k size ↔ p.length = k ∧ InRange size p := by
  induction k generalizing size p with
  | zero =>
    rw [paths_zero, List.mem_singleton, List.length_eq_zero_iff]
    constructor
    · rintro rfl
      exact ⟨rfl, inRange_nil⟩
    · exact And.left
  | succ k ih =>
    simp only [paths, List.mem_flatMap, List.mem_range, List.mem_map, ih]
    constructor
    · rintro ⟨x, hx, q, ⟨hlength, hq⟩, rfl⟩
      exact ⟨congrArg (· + 1) hlength, hx, hq⟩
    · rintro ⟨hlength, hp⟩
      cases p with
      | nil => simp at hlength
      | cons x p => exact ⟨x, hp.1, p, ⟨Nat.succ.inj hlength, hp.2⟩, rfl⟩

theorem pairwise_paths (k : ℕ) (size : List ℕ → ℕ) : (paths k size).Pairwise (· < ·) := by
  induction k generalizing size with
  | zero => exact List.pairwise_singleton _ _
  | succ k ih =>
    refine List.pairwise_flatMap.mpr ⟨fun x _ => ?_, ?_⟩
    · refine List.pairwise_map.mpr ((ih _).imp fun h => ?_)
      exact List.cons_lt_cons_iff.mpr (.inr ⟨rfl, h⟩)
    · refine List.pairwise_lt_range.imp fun hlt => ?_
      simp only [List.mem_map]
      rintro _ ⟨p, _, rfl⟩ _ ⟨q, _, rfl⟩
      exact List.cons_lt_cons_iff.mpr (.inl hlt)

/-- **Counting by the last digit.** -/
theorem next_concat (size : List ℕ → ℕ) (p : List ℕ) (x : ℕ) :
    next size (p ++ [x]) = if x + 1 < size p then some (p ++ [x + 1]) else (next size p).map (· ++ [0]) := by
  induction p generalizing size with
  | nil => rfl
  | cons y p ih =>
    rw [List.cons_append, next, ih]
    by_cases hx : x + 1 < size (y :: p)
    · simp [hx]
    · rw [if_neg hx, if_neg hx, next]
      cases next (fun q => size (y :: q)) p with
      | some q => rfl
      | none => by_cases hy : y + 1 < size [] <;> simp [hy]

/-- A range that is empty looks like one with a single element. -/
theorem next_max_one (size : List ℕ → ℕ) (p : List ℕ) : next (fun p => max 1 (size p)) p = next size p := by
  induction p generalizing size with
  | nil => rfl
  | cons x p ih =>
    have hlt : x + 1 < max 1 (size []) ↔ x + 1 < size [] := by omega
    simp only [next, ih, hlt]

theorem InRange.front (h : InRange size (p ++ [x])) : InRange size p := by
  induction p generalizing size with
  | nil => exact inRange_nil
  | cons y p ih => exact ⟨h.1, ih h.2⟩

/-! ## Counting -/

/-- **The sequences that are visited** from a given one. -/
inductive Run (size : List ℕ → ℕ) : List ℕ → List (List ℕ) → Prop
  | last {p : List ℕ} : next size p = none → Run size p [p]
  | step {p q : List ℕ} {ps : List (List ℕ)} : next size p = some q → Run size q ps → Run size p (p :: ps)

/-- Nothing changes if empty ranges look like ranges with a single element. -/
theorem Run.of_max_one (h : Run (fun p => max 1 (size p)) p ps) : Run size p ps := by
  induction h with
  | last hlast => exact .last ((next_max_one size _).symm.trans hlast)
  | step hnext _ ih => exact .step ((next_max_one size _).symm.trans hnext) ih

theorem inRange_replicate (hpos : ∀ p, 0 < size p) (k : ℕ) : InRange size (List.replicate k 0) := by
  induction k generalizing size with
  | zero => exact inRange_nil
  | succ k ih => exact ⟨hpos [], ih fun p => hpos (0 :: p)⟩

theorem InRange.mono {size' : List ℕ → ℕ} (h : InRange size p) (hle : ∀ p, size p ≤ size' p) :
    InRange size' p := by
  induction p generalizing size size' with
  | nil => exact inRange_nil
  | cons x p ih => exact ⟨h.1.trans_le (hle []), ih h.2 fun p => hle (x :: p)⟩

theorem length_next (h : next size p = some q) : q.length = p.length := by
  induction p generalizing size q with
  | nil => simp at h
  | cons x p ih =>
    rw [next] at h
    split at h
    next q' hq' =>
      obtain rfl := Option.some.inj h
      exact congrArg (· + 1) (ih hq')
    next =>
      split at h
      · obtain rfl := Option.some.inj h
        simp
      · cases h

/-- Counting with a digit in front, which is advanced at the end. -/
theorem Run.cons {rest : List (List ℕ)} (h : Run (fun q => size (x :: q)) p ps)
    (hrest : if x + 1 < size [] then Run size ((x + 1) :: List.replicate p.length 0) rest else rest = []) :
    Run size (x :: p) (ps.map (x :: ·) ++ rest) := by
  induction h with
  | @last p hlast =>
    split at hrest
    · refine .step ?_ hrest
      rw [next, hlast, ← List.map_const']
      exact if_pos ‹_›
    · subst hrest
      refine .last ?_
      rw [next, hlast]
      exact if_neg ‹_›
  | @step p q ps hnext _ ih =>
    refine .step ?_ (ih ?_)
    · rw [next, hnext]
    · rwa [length_next hnext]

/-- **Counting from zero visits every path**, if there is always an element to select. -/
theorem run_paths (hpos : ∀ p, 0 < size p) (k : ℕ) : Run size (List.replicate k 0) (paths k size) := by
  induction k generalizing size with
  | zero => exact .last rfl
  | succ k ih =>
    -- induction over the values of the first digit, from the last one down
    have hblocks : ∀ n x, x + (n + 1) = size [] → Run size (x :: List.replicate k 0)
        ((List.range' x (n + 1)).flatMap fun x => (paths k fun p => size (x :: p)).map (x :: ·)) := by
      intro n
      induction n with
      | zero =>
        intro x hx
        rw [List.range'_succ, List.flatMap_cons]
        refine (ih fun p => hpos (x :: p)).cons ?_
        rw [if_neg (by omega)]
        rfl
      | succ n ihn =>
        intro x hx
        rw [List.range'_succ, List.flatMap_cons]
        refine (ih fun p => hpos (x :: p)).cons ?_
        rw [if_pos (by omega), List.length_replicate]
        exact ihn (x + 1) (by omega)
    obtain ⟨n, hn⟩ := Nat.exists_eq_succ_of_ne_zero (hpos []).ne'
    rw [paths, List.range_eq_range', hn]
    exact hblocks n 0 (by omega)

end FailStar.Odometer
