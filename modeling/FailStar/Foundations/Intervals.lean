import Mathlib.Tactic

/-! # Closed intervals of numbers

An interval is a pair of numbers, both ends included. Two ways to say that some intervals cut up a range, and
one to say that they are the gapless parts of a set:

* **`Consecutive lo ivs hi`** — the intervals lie one behind the other, from `lo` up to `hi` (excluded);
* **`PartitionOf lo hi ivs`** — the intervals are pairwise disjoint and cover exactly what lies between
  `lo` and `hi` (included);
* **`MaximalIntervals s ivs`** — the intervals are the largest ones inside of the set `s`. The function
  **`intervalsOf`** finds them.

Consecutive intervals are determined by their ends, so that their lengths add up
(`Consecutive.sum_lengths`). Disjoint intervals inside a range cover it as soon as their lengths add up to
its length (`covers_of_sum_lengths`). -/

namespace FailStar

/-- The number lies in the interval. -/
def Contains (iv : ℕ × ℕ) (t : ℕ) : Prop := iv.1 ≤ t ∧ t ≤ iv.2

instance (iv : ℕ × ℕ) (t : ℕ) : Decidable (Contains iv t) := inferInstanceAs (Decidable (_ ∧ _))

/-- The number of elements of an interval that is not empty. -/
def intervalLength (iv : ℕ × ℕ) : ℕ := iv.2 - iv.1 + 1

variable {lo mid hi : ℕ} {iv : ℕ × ℕ} {ivs : List (ℕ × ℕ)}

/-! ## Consecutive intervals -/

/-- **The intervals follow each other without a gap**, from `lo` up to `hi`. -/
def Consecutive : ℕ → List (ℕ × ℕ) → ℕ → Prop
  | lo, [], hi => lo = hi
  | lo, iv :: ivs, hi => iv.1 = lo ∧ lo ≤ iv.2 ∧ Consecutive (iv.2 + 1) ivs hi

theorem consecutive_append {front back : List (ℕ × ℕ)} : Consecutive lo (front ++ back) hi ↔
    ∃ mid, Consecutive lo front mid ∧ Consecutive mid back hi := by
  induction front generalizing lo with
  | nil =>
    constructor
    · intro h
      exact ⟨lo, rfl, h⟩
    · rintro ⟨mid, rfl, h⟩
      exact h
  | cons iv front ih =>
    rw [List.cons_append, Consecutive, ih]
    constructor
    · rintro ⟨hfirst, hle, mid, hfront, hback⟩
      exact ⟨mid, ⟨hfirst, hle, hfront⟩, hback⟩
    · rintro ⟨mid, ⟨hfirst, hle, hfront⟩, hback⟩
      exact ⟨hfirst, hle, mid, hfront, hback⟩

theorem consecutive_singleton : Consecutive lo [iv] hi ↔ iv.1 = lo ∧ lo ≤ iv.2 ∧ iv.2 + 1 = hi := Iff.rfl

theorem Consecutive.le (h : Consecutive lo ivs hi) : lo ≤ hi := by
  induction ivs generalizing lo with
  | nil => exact le_of_eq h
  | cons iv ivs ih =>
    have := ih h.2.2
    have := h.2.1
    omega

theorem Consecutive.bounds (h : Consecutive lo ivs hi) (hiv : iv ∈ ivs) :
    lo ≤ iv.1 ∧ iv.1 ≤ iv.2 ∧ iv.2 < hi := by
  induction ivs generalizing lo with
  | nil => exact absurd hiv List.not_mem_nil
  | cons hd tl ih =>
    obtain ⟨hfirst, hle, hrest⟩ := h
    rcases List.mem_cons.mp hiv with rfl | hiv
    · have := hrest.le
      omega
    · have := ih hrest hiv
      omega

theorem Consecutive.pairwise (h : Consecutive lo ivs hi) :
    ivs.Pairwise fun iv iv' => iv.2 < iv'.1 := by
  induction ivs generalizing lo with
  | nil => exact List.Pairwise.nil
  | cons hd tl ih =>
    obtain ⟨-, -, hrest⟩ := h
    refine List.pairwise_cons.mpr ⟨fun iv' hiv' => ?_, ih hrest⟩
    have := (hrest.bounds hiv').1
    omega

theorem Consecutive.pairwise_snd (h : Consecutive lo ivs hi) :
    ivs.Pairwise fun iv iv' => iv.2 < iv'.2 := by
  refine h.pairwise.imp_of_mem fun {iv iv'} _ hiv' hlt => ?_
  have := (h.bounds hiv').2.1
  omega

/-- **The lengths add up** to the length of the range. -/
theorem Consecutive.sum_lengths (h : Consecutive lo ivs hi) :
    (ivs.map intervalLength).sum = hi - lo := by
  induction ivs generalizing lo with
  | nil =>
    obtain rfl : lo = hi := h
    simp
  | cons iv ivs ih =>
    obtain ⟨rfl, hle, hrest⟩ := h
    have := hrest.le
    rw [List.map_cons, List.sum_cons, ih hrest, intervalLength]
    omega

/-- Consecutive intervals, described by the ends of neighbours. -/
theorem consecutive_iff (hne : ivs ≠ []) : Consecutive lo ivs (hi + 1) ↔
    (∀ iv ∈ ivs, iv.1 ≤ iv.2) ∧ (∀ iv ∈ ivs.head?, iv.1 = lo) ∧
      ivs.IsChain (fun iv iv' => iv'.1 = iv.2 + 1) ∧ ∀ iv ∈ ivs.getLast?, iv.2 = hi := by
  induction ivs generalizing lo with
  | nil => exact absurd rfl hne
  | cons iv ivs ih =>
    cases ivs with
    | nil =>
      rw [consecutive_singleton]
      simp only [List.mem_singleton, forall_eq, List.head?_cons, Option.mem_some_iff, forall_eq',
        List.isChain_singleton, true_and, List.getLast?_singleton]
      omega
    | cons iv' ivs =>
      rw [Consecutive, ih (List.cons_ne_nil _ _), List.isChain_cons_cons, List.getLast?_cons_cons]
      simp only [List.head?_cons, Option.mem_some_iff, forall_eq']
      constructor
      · rintro ⟨hfirst, hle, hall, hnext, hchain, hlast⟩
        exact ⟨List.forall_mem_cons.mpr ⟨by omega, hall⟩, hfirst, ⟨hnext, hchain⟩, hlast⟩
      · rintro ⟨hall, hfirst, ⟨hnext, hchain⟩, hlast⟩
        obtain ⟨hle, hall⟩ := List.forall_mem_cons.mp hall
        exact ⟨hfirst, by omega, hall, hnext, hchain, hlast⟩

/-! ## The intervals of a set -/

/-- **The intervals are the largest ones inside of the set**, in ascending order. -/
structure MaximalIntervals (s : Set ℕ) (ivs : List (ℕ × ℕ)) : Prop where
  le : ∀ iv ∈ ivs, iv.1 ≤ iv.2
  separated : ivs.Pairwise fun iv iv' => iv.2 + 1 < iv'.1
  mem_iff : ∀ t, t ∈ s ↔ ∃ iv ∈ ivs, Contains iv t

/-- The maximal intervals of numbers in ascending order. -/
def intervalsOf : List ℕ → List (ℕ × ℕ)
  | [] => []
  | a :: as =>
    match intervalsOf as with
    | [] => [(a, a)]
    | iv :: ivs => if a + 1 = iv.1 then (a, iv.2) :: ivs else (a, a) :: iv :: ivs

namespace MaximalIntervals

variable {s : Set ℕ} {iv' : ℕ × ℕ} {t : ℕ}

theorem eq_or_lt (h : MaximalIntervals s ivs) (hiv : iv ∈ ivs) (hiv' : iv' ∈ ivs) :
    iv = iv' ∨ iv.2 + 1 < iv'.1 ∨ iv'.2 + 1 < iv.1 := by
  have hboth : ivs.Pairwise fun iv iv' => iv = iv' ∨ iv.2 + 1 < iv'.1 ∨ iv'.2 + 1 < iv.1 :=
    h.separated.imp fun hlt => Or.inr (Or.inl hlt)
  refine List.Pairwise.forall_of_forall_of_flip ?_ hboth ?_ hiv hiv'
  · exact fun _ _ => Or.inl rfl
  · exact h.separated.imp fun hlt => Or.inr (Or.inr hlt)

theorem mem (h : MaximalIntervals s ivs) (hiv : iv ∈ ivs) (ht : Contains iv t) : t ∈ s :=
  (h.mem_iff t).mpr ⟨iv, hiv, ht⟩

theorem not_mem_before (h : MaximalIntervals s ivs) (hiv : iv ∈ ivs) (ht : t + 1 = iv.1) : t ∉ s := by
  intro hmem
  obtain ⟨iv', hiv', hle, hle'⟩ := (h.mem_iff t).mp hmem
  have := h.le iv hiv
  have := h.le iv' hiv'
  rcases h.eq_or_lt hiv hiv' with rfl | hlt | hlt
  · omega
  · omega
  · omega

theorem not_mem_behind (h : MaximalIntervals s ivs) (hiv : iv ∈ ivs) : iv.2 + 1 ∉ s := by
  intro hmem
  obtain ⟨iv', hiv', hle, hle'⟩ := (h.mem_iff _).mp hmem
  have := h.le iv hiv
  have := h.le iv' hiv'
  rcases h.eq_or_lt hiv hiv' with rfl | hlt | hlt
  · omega
  · omega
  · omega

/-- **An interval inside of the set lies in a maximal one**, if they meet. -/
theorem le_of_contains (h : MaximalIntervals s ivs) (hiv : iv ∈ ivs) (hsub : ∀ t, Contains iv' t → t ∈ s)
    (ht : Contains iv t) (ht' : Contains iv' t) : iv.1 ≤ iv'.1 ∧ iv'.2 ≤ iv.2 := by
  have ⟨hle, hle'⟩ := ht
  have ⟨hge, hge'⟩ := ht'
  constructor
  · by_contra hlt
    refine h.not_mem_before (t := iv.1 - 1) hiv (by omega) (hsub _ ⟨?_, ?_⟩)
    · omega
    · omega
  · by_contra hlt
    refine h.not_mem_behind hiv (hsub _ ⟨?_, ?_⟩)
    · omega
    · omega

end MaximalIntervals

theorem head_intervalsOf (a : ℕ) (as : List ℕ) : ∀ iv ∈ (intervalsOf (a :: as)).head?, iv.1 = a := by
  intro iv hiv
  rw [intervalsOf] at hiv
  split at hiv
  · rw [← Option.some.inj hiv]
  · split at hiv
    · rw [← Option.some.inj hiv]
    · rw [← Option.some.inj hiv]

/-- **The maximal intervals.** -/
theorem maximalIntervals_intervalsOf {as : List ℕ} (h : as.Pairwise (· < ·)) :
    MaximalIntervals {t | t ∈ as} (intervalsOf as) := by
  induction as with
  | nil => exact ⟨by simp [intervalsOf], List.Pairwise.nil, by simp [intervalsOf]⟩
  | cons a as ih =>
    obtain ⟨ha, has⟩ := List.pairwise_cons.mp h
    have ⟨hle, hsep, hmem⟩ := ih has
    have hhead : ∀ iv ∈ (intervalsOf as).head?, a < iv.1 := by
      cases as with
      | nil => simp [intervalsOf]
      | cons a' as =>
        intro iv hiv
        rw [head_intervalsOf a' as iv hiv]
        exact ha a' List.mem_cons_self
    rw [intervalsOf]
    simp only [Set.mem_ofPred_eq] at hmem
    split
    · rename_i hnil
      refine ⟨by simp, List.pairwise_singleton _ _, fun t => ?_⟩
      have hnone : t ∉ as := by simp [hmem, hnil]
      rw [Set.mem_ofPred_eq, List.mem_cons, or_iff_left hnone, List.exists_mem_cons_iff,
        or_iff_left (by simp), Contains]
      omega
    · rename_i iv ivs hcons
      rw [hcons] at hle hsep hmem hhead
      have hlt : a < iv.1 := hhead iv rfl
      have hle' := hle iv List.mem_cons_self
      obtain ⟨hfirst, hrest⟩ := List.pairwise_cons.mp hsep
      split
      · -- the number extends the first interval
        refine ⟨List.forall_mem_cons.mpr ⟨?_, ?_⟩, List.pairwise_cons.mpr ⟨hfirst, hrest⟩, fun t => ?_⟩
        · dsimp only
          omega
        · exact fun iv' hiv' => hle iv' (List.mem_cons_of_mem _ hiv')
        · simp only [Set.mem_ofPred_eq, List.mem_cons, hmem, exists_eq_or_imp, ← or_assoc, Contains]
          refine or_congr_left ?_
          omega
      · refine ⟨List.forall_mem_cons.mpr ⟨le_rfl, hle⟩, List.pairwise_cons.mpr ⟨fun iv' hiv' => ?_, hsep⟩,
          fun t => ?_⟩
        · rcases List.mem_cons.mp hiv' with rfl | hiv'
          · dsimp only
            omega
          · have := hfirst iv' hiv'
            dsimp only
            omega
        · rw [Set.mem_ofPred_eq, List.mem_cons, hmem, List.exists_mem_cons_iff (a := (a, a))]
          refine or_congr_left ?_
          rw [Contains]
          omega

/-! ## Partitions -/

/-- The intervals have no number in common. -/
def IntervalsDisjoint (iv iv' : ℕ × ℕ) : Prop := ∀ t, ¬ (Contains iv t ∧ Contains iv' t)

/-- **The intervals partition the range** from `lo` to `hi`. -/
structure PartitionOf (lo hi : ℕ) (ivs : List (ℕ × ℕ)) : Prop where
  disjoint : ivs.Pairwise IntervalsDisjoint
  covers : ∀ t, (∃ iv ∈ ivs, Contains iv t) ↔ lo ≤ t ∧ t ≤ hi

/-- Of pairwise disjoint intervals at most one contains a number. -/
theorem countP_contains_le_one (h : ivs.Pairwise IntervalsDisjoint) (t : ℕ) :
    ivs.countP (fun iv => decide (Contains iv t)) ≤ 1 := by
  induction ivs with
  | nil => exact Nat.zero_le 1
  | cons iv ivs ih =>
    obtain ⟨hiv, hrest⟩ := List.pairwise_cons.mp h
    by_cases hc : Contains iv t
    · have hzero : ivs.countP (fun iv => decide (Contains iv t)) = 0 := by
        rw [List.countP_eq_zero]
        intro iv' hiv' hc'
        exact hiv iv' hiv' t ⟨hc, of_decide_eq_true hc'⟩
      rw [List.countP_cons, hzero]
      simp [hc]
    · rw [List.countP_cons_of_neg (by simpa using hc)]
      exact ih hrest

/-- The lengths of intervals inside a range, counted number by number. -/
theorem sum_countP_contains (hin : ∀ iv ∈ ivs, lo ≤ iv.1 ∧ iv.1 ≤ iv.2 ∧ iv.2 ≤ hi) :
    ∑ t ∈ Finset.Icc lo hi, ivs.countP (fun iv => decide (Contains iv t)) =
      (ivs.map intervalLength).sum := by
  induction ivs with
  | nil => simp
  | cons iv ivs ih =>
    obtain ⟨hlo, hle, hhi⟩ := hin iv List.mem_cons_self
    have hone : ∑ t ∈ Finset.Icc lo hi, (if decide (Contains iv t) = true then 1 else 0) =
        intervalLength iv := by
      have hfilter : (Finset.Icc lo hi).filter (Contains iv) = Finset.Icc iv.1 iv.2 := by
        ext t
        rw [Finset.mem_filter, Finset.mem_Icc, Finset.mem_Icc, Contains]
        omega
      simp only [decide_eq_true_eq]
      rw [← Finset.sum_filter, hfilter, Finset.sum_const, Nat.card_Icc, intervalLength, smul_eq_mul]
      omega
    simp only [List.countP_cons, Finset.sum_add_distrib, List.map_cons, List.sum_cons]
    rw [ih fun iv' hiv' => hin iv' (List.mem_cons_of_mem _ hiv'), hone, Nat.add_comm]

/-- **Disjoint intervals inside a range cover it**, if their lengths add up to its length. -/
theorem covers_of_sum_lengths (hle : lo ≤ hi) (hdisjoint : ivs.Pairwise IntervalsDisjoint)
    (hin : ∀ iv ∈ ivs, lo ≤ iv.1 ∧ iv.1 ≤ iv.2 ∧ iv.2 ≤ hi)
    (hsum : (ivs.map intervalLength).sum = hi - lo + 1) : PartitionOf lo hi ivs := by
  refine ⟨hdisjoint, fun t => ⟨?_, ?_⟩⟩
  · rintro ⟨iv, hiv, hc⟩
    have := hin iv hiv
    have := hc.1
    have := hc.2
    omega
  · intro ht
    by_contra hnone
    -- a number outside of all intervals makes the count too small
    have hzero : ivs.countP (fun iv => decide (Contains iv t)) = 0 := by
      rw [List.countP_eq_zero]
      intro iv hiv hc
      exact hnone ⟨iv, hiv, of_decide_eq_true hc⟩
    have hlt : ∑ t ∈ Finset.Icc lo hi, ivs.countP (fun iv => decide (Contains iv t)) <
        ∑ _t ∈ Finset.Icc lo hi, 1 := by
      refine Finset.sum_lt_sum (fun t _ => countP_contains_le_one hdisjoint t) ⟨t, ?_, ?_⟩
      · exact Finset.mem_Icc.mpr ht
      · rw [hzero]
        exact Nat.one_pos
    rw [sum_countP_contains hin, hsum, Finset.sum_const, Nat.card_Icc, smul_eq_mul] at hlt
    omega

end FailStar
