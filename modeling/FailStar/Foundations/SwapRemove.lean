import Mathlib.Data.List.Basic
import Mathlib.Data.List.Nodup
import Mathlib.Data.List.Perm.Basic
import Mathlib.Order.Nat
import Mathlib.Tactic.ByContra

/-! # Vectors with removal by moving the last element

A vector removes an element in constant time by moving its last element to the freed position. Whoever keeps
positions of such a vector has to follow the move.

* **`swapRemove`** — the removal; `swapRemove_perm` — what is left.
* **`Located`** — every element knows its position, and what is outside of the vector has none.
* **`IndexOf`** — a list of positions is an index of the elements with some property. The rules
  `IndexOf.swapRemove_last`, `IndexOf.swapRemove_moved` and `IndexOf.swapRemove_kept` say how an index is
  maintained, and `IndexOf.lookup` what it is good for. -/

namespace FailStar

variable {α : Type*} {l : List α} {i j : ℕ} {a b : α}

/-- **Remove a position by moving the last element there.** -/
def swapRemove (l : List α) (i : ℕ) : List α :=
  match l.getLast? with
  | none => []
  | some last => (l.set i last).dropLast

theorem swapRemove_eq (hb : l[l.length - 1]? = some b) : swapRemove l i = (l.set i b).dropLast := by
  rw [swapRemove, List.getLast?_eq_getElem?, hb]

theorem getElem?_swapRemove (hi : l[i]? = some a) (j : ℕ) :
    (swapRemove l i)[j]? =
      if j + 1 < l.length then (if j = i then l[l.length - 1]? else l[j]?) else none := by
  have hlt : i < l.length := (List.getElem?_eq_some_iff.mp hi).1
  obtain ⟨b, hb⟩ : ∃ b, l[l.length - 1]? = some b :=
    ⟨_, List.getElem?_eq_getElem (by omega)⟩
  rw [swapRemove_eq hb, List.getElem?_dropLast, List.length_set, List.getElem?_set]
  by_cases hj : j + 1 < l.length
  · have hj' : j < l.length - 1 := by omega
    rw [if_pos hj', if_pos hj]
    by_cases hij : i = j
    · rw [if_pos hij, if_pos hlt, if_pos hij.symm, hb]
    · rw [if_neg hij, if_neg (Ne.symm hij)]
  · have hj' : ¬ j < l.length - 1 := by omega
    rw [if_neg hj', if_neg hj]

@[simp] theorem length_swapRemove (l : List α) (i : ℕ) : (swapRemove l i).length = l.length - 1 := by
  unfold swapRemove
  cases hlast : l.getLast? with
  | none => simp [List.getLast?_eq_none_iff.mp hlast]
  | some last => simp

theorem swapRemove_perm (hi : l[i]? = some a) : l.Perm (a :: swapRemove l i) := by
  obtain rfl | ⟨init, last, rfl⟩ := List.eq_nil_or_concat' l
  · simp at hi
  · have hlast : swapRemove (init ++ [last]) i = ((init ++ [last]).set i last).dropLast :=
      swapRemove_eq (by simp)
    rw [hlast]
    by_cases hlt : i < init.length
    · have ha : init[i] = a := by
        rw [List.getElem?_append_left hlt, List.getElem?_eq_getElem hlt] at hi
        exact Option.some.inj hi
      rw [List.set_append_left _ _ hlt, List.dropLast_concat]
      calc (init ++ [last]).Perm (last :: init) := List.perm_append_singleton last init
        _ |>.Perm (last :: init[i] :: init.eraseIdx i) := (List.getElem_cons_eraseIdx_perm hlt).symm.cons last
        _ |>.Perm (init[i] :: last :: init.eraseIdx i) := List.Perm.swap _ _ _
        _ |>.Perm (a :: init.set i last) := by
          rw [ha]
          exact (List.set_perm_cons_eraseIdx hlt last).symm.cons a
    · -- the last position: nothing moves
      have hi' : i = init.length := by
        have := (List.getElem?_eq_some_iff.mp hi).1
        simp only [List.length_append, List.length_singleton] at this
        omega
      subst hi'
      have ha : last = a := by simpa using hi
      rw [List.set_append_right _ _ (Nat.le_refl _), Nat.sub_self, List.set_cons_zero,
        List.dropLast_concat, ← ha]
      exact List.perm_append_singleton last init

theorem mem_swapRemove (hl : l.Nodup) (hi : l[i]? = some a) : b ∈ swapRemove l i ↔ b ∈ l ∧ b ≠ a := by
  have hperm := swapRemove_perm hi
  have ha : a ∉ swapRemove l i := (List.nodup_cons.mp (hperm.nodup hl)).1
  rw [hperm.mem_iff, List.mem_cons]
  constructor
  · intro hb
    exact ⟨Or.inr hb, fun hab => ha (hab ▸ hb)⟩
  · rintro ⟨rfl | hb, hne⟩
    · exact absurd rfl hne
    · exact hb

/-! ## Positions that the elements keep -/

/-- Every element of the vector knows its position, and every other one has none. -/
structure Located (l : List α) (location : α → Option ℕ) : Prop where
  inside : ∀ i a, l[i]? = some a → location a = some i
  outside : ∀ a, a ∉ l → location a = none

variable {location : α → Option ℕ}

theorem Located.eq_of_getElem? (h : Located l location) (hi : l[i]? = some a) (hj : l[j]? = some a) :
    i = j :=
  Option.some.inj ((h.inside i a hi).symm.trans (h.inside j a hj))

theorem Located.nodup (h : Located l location) : l.Nodup := by
  rw [List.nodup_iff_getElem?_ne_getElem?]
  intro i j hij hj heq
  have hi := List.getElem?_eq_getElem (hij.trans hj)
  exact hij.ne (h.eq_of_getElem? hi (heq ▸ hi))

theorem Located.getElem? (h : Located l location) (ha : location a = some i) : l[i]? = some a := by
  have hmem : a ∈ l := by
    by_contra hout
    rw [h.outside a hout] at ha
    cases ha
  obtain ⟨j, hj⟩ := List.mem_iff_getElem?.mp hmem
  rwa [Option.some.inj ((h.inside j a hj).symm.trans ha)] at hj

variable [DecidableEq α]

theorem Located.append (h : Located l location) (ha : a ∉ l) :
    Located (l ++ [a]) (Function.update location a (some l.length)) where
  inside j x hj := by
    rw [List.getElem?_append] at hj
    split at hj
    · have hx : x ≠ a := fun hxa => ha (hxa ▸ List.mem_of_getElem? hj)
      rw [Function.update_of_ne hx, h.inside j x hj]
    · obtain ⟨hlt, rfl⟩ := List.getElem?_eq_some_iff.mp hj
      simp only [List.length_singleton, Nat.lt_one_iff] at hlt
      have hjl : j = l.length := by omega
      simp [hjl]
  outside x hx := by
    simp only [List.mem_append, List.mem_singleton, not_or] at hx
    rw [Function.update_of_ne hx.2, h.outside x hx.1]

/-- The removed element loses its position. If it was the last one, no other element moves. -/
theorem Located.swapRemove_last (h : Located l location) (hi : l[i]? = some a) (hlast : i + 1 = l.length) :
    Located (swapRemove l i) (Function.update location a none) where
  inside j x hj := by
    rw [getElem?_swapRemove hi] at hj
    split at hj
    · rename_i hlt
      rw [if_neg (by omega)] at hj
      have hx : x ≠ a := fun hxa => by
        have := h.eq_of_getElem? hi (hxa ▸ hj)
        omega
      rw [Function.update_of_ne hx, h.inside j x hj]
    · cases hj
  outside x hx := by
    rw [mem_swapRemove h.nodup hi, not_and_not_right] at hx
    by_cases hxa : x = a
    · rw [hxa, Function.update_self]
    · rw [Function.update_of_ne hxa, h.outside x fun hmem => hxa (hx hmem)]

/-- Otherwise the last one gets its position. -/
theorem Located.swapRemove_moved (h : Located l location) (hi : l[i]? = some a) (hlt : i + 1 < l.length)
    (hb : l[l.length - 1]? = some b) :
    Located (swapRemove l i) (Function.update (Function.update location a none) b (some i)) where
  inside j x hj := by
    rw [getElem?_swapRemove hi] at hj
    split at hj
    · rename_i hlt'
      split at hj
      · rename_i hji
        obtain rfl : b = x := Option.some.inj (hb.symm.trans hj)
        rw [Function.update_self, hji]
      · rename_i hji
        have hxb : x ≠ b := fun hx => by
          have := h.eq_of_getElem? hb (hx ▸ hj)
          omega
        have hxa : x ≠ a := fun hx => hji (h.eq_of_getElem? (hx ▸ hj) hi)
        rw [Function.update_of_ne hxb, Function.update_of_ne hxa, h.inside j x hj]
    · cases hj
  outside x hx := by
    rw [mem_swapRemove h.nodup hi, not_and_not_right] at hx
    have hba : b ≠ a := fun hba => by
      have := h.eq_of_getElem? hi (hba ▸ hb)
      omega
    have hxb : x ≠ b := fun hxb => hba (hxb ▸ hx (hxb ▸ List.mem_of_getElem? hb))
    rw [Function.update_of_ne hxb]
    by_cases hxa : x = a
    · rw [hxa, Function.update_self]
    · rw [Function.update_of_ne hxa, h.outside x fun hmem => hxa (hx hmem)]

/-! ## Indices -/

omit [DecidableEq α]

/-- `index` holds, without duplicates, the positions of the elements with property `p`. -/
structure IndexOf (l : List α) (p : α → Prop) (index : List ℕ) : Prop where
  nodup : index.Nodup
  mem_iff : ∀ i, i ∈ index ↔ ∃ a, l[i]? = some a ∧ p a

variable {p q : α → Prop} {index : List ℕ}

theorem IndexOf.congr (h : IndexOf l p index) (hpq : ∀ a ∈ l, p a ↔ q a) : IndexOf l q index where
  nodup := h.nodup
  mem_iff i := by
    rw [h.mem_iff]
    constructor
    · rintro ⟨a, ha, hp⟩
      exact ⟨a, ha, (hpq a (List.mem_of_getElem? ha)).mp hp⟩
    · rintro ⟨a, ha, hq⟩
      exact ⟨a, ha, (hpq a (List.mem_of_getElem? ha)).mpr hq⟩

theorem IndexOf.append (h : IndexOf l p index) (ha : p a) : IndexOf (l ++ [a]) p (index ++ [l.length]) where
  nodup := by
    refine List.nodup_append.mpr ⟨h.nodup, List.nodup_singleton _, ?_⟩
    intro i hi j hj hij
    obtain ⟨x, hx, -⟩ := (h.mem_iff i).mp hi
    have hlt := (List.getElem?_eq_some_iff.mp hx).1
    rw [hij, List.mem_singleton.mp hj] at hlt
    exact lt_irrefl _ hlt
  mem_iff j := by
    rw [List.mem_append, List.mem_singleton, h.mem_iff]
    constructor
    · rintro (⟨x, hx, hp⟩ | rfl)
      · exact ⟨x, by rw [List.getElem?_append_left (List.getElem?_eq_some_iff.mp hx).1, hx], hp⟩
      · exact ⟨a, List.getElem?_concat_length, ha⟩
    · rintro ⟨x, hx, hp⟩
      rw [List.getElem?_append] at hx
      split at hx
      · exact Or.inl ⟨x, hx, hp⟩
      · have := (List.getElem?_eq_some_iff.mp hx).1
        simp only [List.length_singleton, Nat.lt_one_iff] at this
        exact Or.inr (by omega)

theorem IndexOf.append_of_not (h : IndexOf l p index) (ha : ¬ p a) : IndexOf (l ++ [a]) p index where
  nodup := h.nodup
  mem_iff j := by
    rw [h.mem_iff]
    constructor
    · rintro ⟨x, hx, hp⟩
      exact ⟨x, by rw [List.getElem?_append_left (List.getElem?_eq_some_iff.mp hx).1, hx], hp⟩
    · rintro ⟨x, hx, hp⟩
      rw [List.getElem?_append] at hx
      split at hx
      · exact ⟨x, hx, hp⟩
      · rw [List.mem_singleton.mp (List.mem_of_getElem? hx)] at hp
        exact absurd hp ha

/-- Looking up all positions of an index finds exactly the elements with the property. -/
theorem IndexOf.lookup (h : IndexOf l p index) (hl : l.Nodup) :
    ∃ xs, index.mapM (fun i => l[i]?) = some xs ∧ xs.Nodup ∧ ∀ x, x ∈ xs ↔ x ∈ l ∧ p x := by
  have hlookup : ∀ index : List ℕ, index.Nodup → (∀ i ∈ index, i < l.length) →
      ∃ xs, index.mapM (fun i => l[i]?) = some xs ∧ xs.Nodup ∧ ∀ x, x ∈ xs ↔ ∃ i ∈ index, l[i]? = some x := by
    intro index
    induction index with
    | nil => intro _ _; exact ⟨[], rfl, List.nodup_nil, by simp⟩
    | cons i index ih =>
      intro hnodup hlt
      obtain ⟨hi, hnodup⟩ := List.nodup_cons.mp hnodup
      obtain ⟨xs, hxs, hxsnodup, hmem⟩ := ih hnodup fun j hj => hlt j (List.mem_cons_of_mem i hj)
      have hilt := hlt i List.mem_cons_self
      refine ⟨l[i] :: xs, ?_, List.nodup_cons.mpr ⟨?_, hxsnodup⟩, ?_⟩
      · rw [List.mapM_cons, hxs, List.getElem?_eq_getElem hilt]
        rfl
      · intro hmemi
        obtain ⟨j, hj, hji⟩ := (hmem _).mp hmemi
        have hij : i = j :=
          (List.getElem?_inj hilt hl).mp ((List.getElem?_eq_getElem hilt).trans hji.symm)
        exact hi (hij ▸ hj)
      · intro x
        rw [List.mem_cons, hmem, List.exists_mem_cons_iff, List.getElem?_eq_getElem hilt,
          Option.some_inj, eq_comm]
  obtain ⟨xs, hxs, hnodup, hmem⟩ := hlookup index h.nodup fun i hi => by
    obtain ⟨a, ha, -⟩ := (h.mem_iff i).mp hi
    exact (List.getElem?_eq_some_iff.mp ha).1
  refine ⟨xs, hxs, hnodup, fun x => ?_⟩
  rw [hmem]
  constructor
  · rintro ⟨i, hi, hx⟩
    obtain ⟨a, ha, hpa⟩ := (h.mem_iff i).mp hi
    obtain rfl : a = x := Option.some.inj (ha.symm.trans hx)
    exact ⟨List.mem_of_getElem? hx, hpa⟩
  · rintro ⟨hx, hpx⟩
    obtain ⟨i, hi⟩ := List.mem_iff_getElem?.mp hx
    exact ⟨i, (h.mem_iff i).mpr ⟨x, hi, hpx⟩, hi⟩

/-- What is in an index once the position of the removed element is taken out. -/
theorem IndexOf.mem_erase (h : IndexOf l p index) (hl : l.Nodup) (hi : l[i]? = some a) :
    j ∈ index.erase i ↔ ∃ x, l[j]? = some x ∧ x ≠ a ∧ p x := by
  rw [h.nodup.mem_erase_iff, h.mem_iff]
  constructor
  · rintro ⟨hji, x, hx, hp⟩
    refine ⟨x, hx, ?_, hp⟩
    rintro rfl
    exact hji ((List.getElem?_inj (List.getElem?_eq_some_iff.mp hx).1 hl).mp (hx.trans hi.symm))
  · rintro ⟨x, hx, hxa, hp⟩
    refine ⟨?_, x, hx, hp⟩
    rintro rfl
    exact hxa (Option.some.inj (hx.symm.trans hi))

/-- If the removed element was the last one, its position is taken out of the index. -/
theorem IndexOf.swapRemove_last (h : IndexOf l p index) (hl : l.Nodup) (hi : l[i]? = some a)
    (hlast : i + 1 = l.length) : IndexOf (swapRemove l i) (fun x => x ≠ a ∧ p x) (index.erase i) where
  nodup := h.nodup.erase i
  mem_iff j := by
    rw [h.mem_erase hl hi, getElem?_swapRemove hi]
    have hother : ∀ x, x ≠ a → l[j]? = some x → j + 1 < l.length ∧ j ≠ i := by
      intro x hxa hx
      have hlt := (List.getElem?_eq_some_iff.mp hx).1
      have hji : j ≠ i := fun hji => hxa (Option.some.inj (hx.symm.trans (hji ▸ hi)))
      omega
    constructor
    · rintro ⟨x, hx, hxa, hp⟩
      obtain ⟨hlt, hji⟩ := hother x hxa hx
      exact ⟨x, by rw [if_pos hlt, if_neg hji, hx], hxa, hp⟩
    · rintro ⟨x, hx, hxa, hp⟩
      split at hx
      · rw [if_neg (by omega)] at hx
        exact ⟨x, hx, hxa, hp⟩
      · cases hx

/-- If the last element moves and is not in the index, nothing else changes. -/
theorem IndexOf.swapRemove_kept (h : IndexOf l p index) (hl : l.Nodup) (hi : l[i]? = some a)
    (hb : l[l.length - 1]? = some b) (hp : ¬ p b) :
    IndexOf (swapRemove l i) (fun x => x ≠ a ∧ p x) (index.erase i) where
  nodup := h.nodup.erase i
  mem_iff j := by
    rw [h.mem_erase hl hi, getElem?_swapRemove hi]
    constructor
    · rintro ⟨x, hx, hxa, hpx⟩
      have hj := (List.getElem?_eq_some_iff.mp hx).1
      have hji : j ≠ i := fun hji => hxa (Option.some.inj (hx.symm.trans (hji ▸ hi)))
      have hjl : j ≠ l.length - 1 := by
        rintro rfl
        exact hp (Option.some.inj (hx.symm.trans hb) ▸ hpx)
      exact ⟨x, by rw [if_pos (by omega), if_neg hji, hx], hxa, hpx⟩
    · rintro ⟨x, hx, hxa, hpx⟩
      split at hx
      · split at hx
        · exact absurd (Option.some.inj (hx.symm.trans hb) ▸ hpx) hp
        · exact ⟨x, hx, hxa, hpx⟩
      · cases hx

/-- If the last element moves and is in the index, its old position is replaced by the new one. -/
theorem IndexOf.swapRemove_moved (h : IndexOf l p index) (hl : l.Nodup) (hi : l[i]? = some a)
    (hlt : i + 1 < l.length) (hb : l[l.length - 1]? = some b) (hp : p b) :
    IndexOf (swapRemove l i) (fun x => x ≠ a ∧ p x) ((index.erase i).erase (l.length - 1) ++ [i]) := by
  have hnodup : (index.erase i).Nodup := h.nodup.erase i
  refine ⟨?_, ?_⟩
  · refine List.nodup_append.mpr ⟨hnodup.erase _, List.nodup_singleton _, ?_⟩
    intro j hj k hk hjk
    rw [hnodup.mem_erase_iff, h.nodup.mem_erase_iff] at hj
    exact hj.2.1 (hjk.trans (List.mem_singleton.mp hk))
  · intro j
    rw [List.mem_append, List.mem_singleton, hnodup.mem_erase_iff, h.mem_erase hl hi, getElem?_swapRemove hi]
    constructor
    · rintro (⟨hjl, x, hx, hxa, hpx⟩ | rfl)
      · have hj := (List.getElem?_eq_some_iff.mp hx).1
        have hji : j ≠ i := fun hji => hxa (Option.some.inj (hx.symm.trans (hji ▸ hi)))
        exact ⟨x, by rw [if_pos (by omega), if_neg hji, hx], hxa, hpx⟩
      · refine ⟨b, by rw [if_pos hlt, if_pos rfl, hb], ?_, hp⟩
        rintro rfl
        have := (List.getElem?_inj (by omega) hl).mp (hi.trans hb.symm)
        omega
    · rintro ⟨x, hx, hxa, hpx⟩
      split at hx
      · split at hx
        · rename_i hji
          exact Or.inr hji
        · exact Or.inl ⟨by omega, x, hx, hxa, hpx⟩
      · cases hx

end FailStar
