import FailStar.Util.SumTree

/-! # A tree that only grows

The pruners fill a tree with all rows they load. As long as nothing is removed, a bucket gets a new child only
when its newest child is full, so that the depth of the tree is logarithmic in the number of entries.

* **`Bucket.Packed`** — all children but the newest one are full; it is kept by `add` (`Bucket.Packed.add`).
* **`SumTree.Growing.depth_lt`** — the number of levels does not exceed its 32 bits.
* **`SumTree.represents_foldl_add`** — the tree behind the loop over all rows. -/

namespace FailStar

variable {α : Type*} {size : α → ℕ} {bucketSize d : ℕ} {node : Bucket α} {e : α}

/-- **All children but the newest one are full**: they have at least two entries on every level. -/
def Bucket.Packed : ℕ → Bucket α → Prop
  | 0, _ => True
  | d + 1, node =>
    (∀ child ∈ node.children.dropLast, 2 ^ (d + 1) ≤ (child.entries d).length) ∧
      ∀ child ∈ node.children, Bucket.Packed d child

theorem Bucket.packed_empty (d : ℕ) : Bucket.Packed d ({} : Bucket α) := by
  cases d with
  | zero => trivial
  | succ d => exact ⟨by simp, by simp⟩

theorem Bucket.add_empty (hcap : 1 ≤ bucketSize) (d : ℕ) : (Bucket.add size bucketSize e d {}).1 = true := by
  induction d with
  | zero =>
    rw [Bucket.add, if_pos (show ([] : List α).length < bucketSize from hcap)]
  | succ d ih =>
    rw [Bucket.add_succ_of_nil rfl (Prod.ext ih rfl)]

theorem Bucket.add_concat {children : List (Bucket α)} {newest : Bucket α}
    (hchildren : node.children = children ++ [newest]) :
    node.add size bucketSize e (d + 1) =
      if (newest.add size bucketSize e d).1 then
        (true, { node with
          children := children ++ [(newest.add size bucketSize e d).2]
          size := (node.size + size e) % 2 ^ 64 })
      else if children.length + 1 < bucketSize then
        (true, { node with
          children := children ++ [(newest.add size bucketSize e d).2] ++ [(Bucket.add size bucketSize e d {}).2]
          size := (node.size + size e) % 2 ^ 64 })
      else (false, { node with children := children ++ [(newest.add size bucketSize e d).2] }) :=
  Bucket.add_succ_of_concat hchildren rfl

theorem Bucket.add_of_full (hcap : 1 ≤ bucketSize) (hfull : (node.add size bucketSize e d).1 = false) :
    (node.add size bucketSize e d).2 = node := by
  induction d generalizing node with
  | zero =>
    rw [Bucket.add] at hfull ⊢
    split at hfull
    · cases hfull
    · rename_i hroom
      rw [if_neg hroom]
  | succ d ih =>
    rcases List.eq_nil_or_concat' node.children with hnil | ⟨children, newest, hchildren⟩
    · rw [Bucket.add_succ_of_nil hnil (Prod.ext (Bucket.add_empty hcap d) rfl)] at hfull
      cases hfull
    · rw [Bucket.add_concat hchildren] at hfull ⊢
      split at hfull
      · cases hfull
      · rename_i hnewest
        rw [if_neg hnewest]
        split at hfull
        · cases hfull
        · -- the newest child was asked, and is as it was before
          rename_i hroom
          rw [if_neg hroom, ih (Bool.eq_false_iff.mpr hnewest), ← hchildren]
          cases node
          rfl

/-- **A full bucket has at least two entries on every level.** -/
theorem Bucket.Packed.full (hcap : 2 ≤ bucketSize) (h : node.Packed d)
    (hfull : (node.add size bucketSize e d).1 = false) : 2 ^ (d + 1) ≤ (node.entries d).length := by
  induction d generalizing node with
  | zero =>
    rw [Bucket.add] at hfull
    split at hfull
    · cases hfull
    · rename_i hroom
      exact hcap.trans (Nat.not_lt.mp hroom)
  | succ d ih =>
    obtain ⟨hfront, hchild⟩ := h
    rcases List.eq_nil_or_concat' node.children with hnil | ⟨children, newest, hchildren⟩
    · rw [Bucket.add_succ_of_nil hnil (Prod.ext (Bucket.add_empty (by omega) d) rfl)] at hfull
      cases hfull
    · rw [Bucket.add_concat hchildren] at hfull
      rw [hchildren, List.dropLast_concat] at hfront
      split at hfull
      · cases hfull
      · rename_i hnewest
        split at hfull
        · cases hfull
        · rename_i hroom
          have hlast := ih (hchild newest (by simp [hchildren])) (Bool.eq_false_iff.mpr hnewest)
          -- there is another child in front of the newest one
          obtain ⟨first, rest, rfl⟩ := List.exists_cons_of_length_pos (show 0 < children.length by omega)
          have hfirst := hfront first List.mem_cons_self
          rw [Bucket.entries, hchildren, List.flatMap_append, List.flatMap_cons, List.flatMap_singleton,
            List.length_append, List.length_append]
          omega

/-- **`add` keeps all children but the newest one full.** -/
theorem Bucket.Packed.add (hcap : 2 ≤ bucketSize) (h : node.Packed d) :
    (node.add size bucketSize e d).2.Packed d := by
  induction d generalizing node with
  | zero => trivial
  | succ d ih =>
    obtain ⟨hfront, hchild⟩ := h
    have hfresh : (Bucket.add size bucketSize e d {}).2.Packed d := ih (Bucket.packed_empty d)
    rcases List.eq_nil_or_concat' node.children with hnil | ⟨children, newest, hchildren⟩
    · rw [Bucket.add_succ_of_nil hnil (Prod.ext (Bucket.add_empty (by omega) d) rfl)]
      exact ⟨by simp, List.forall_mem_singleton.mpr hfresh⟩
    · rw [hchildren, List.dropLast_concat] at hfront
      rw [hchildren] at hchild
      obtain ⟨hold, hnew⟩ := List.forall_mem_append.mp hchild
      have hnewest := List.forall_mem_singleton.mp hnew
      have hchild' := List.forall_mem_append.mpr ⟨hold, List.forall_mem_singleton.mpr (ih hnewest)⟩
      rw [Bucket.add_concat hchildren]
      split
      · exact ⟨by rwa [List.dropLast_concat], hchild'⟩
      · rename_i hadded
        have hfull := Bool.eq_false_iff.mpr hadded
        split
        · -- the newest child is full, and gets a sibling
          refine ⟨?_, List.forall_mem_append.mpr ⟨hchild', List.forall_mem_singleton.mpr hfresh⟩⟩
          rw [List.dropLast_concat, Bucket.add_of_full (by omega) hfull]
          exact List.forall_mem_append.mpr
            ⟨hfront, List.forall_mem_singleton.mpr (hnewest.full hcap hfull)⟩
        · exact ⟨by rwa [List.dropLast_concat], hchild'⟩

/-! ## The tree -/

/-- **A tree to which elements have only been added**: it represents a list, and it is as flat as it can be. -/
structure SumTree.Growing (size : α → ℕ) (bucketSize : ℕ) (tree : SumTree α) (entries : List α) : Prop where
  represents : tree.Represents size bucketSize entries
  packed : tree.root.Packed tree.depth
  depth : tree.depth = 0 ∨ 2 ^ tree.depth ≤ entries.length

variable {tree : SumTree α} {entries : List α}

theorem SumTree.Represents.length_le (h : tree.Represents size bucketSize entries) :
    entries.length ≤ totalSize size entries := by
  have hpositive : ∀ x ∈ entries, 0 < size x := by
    rw [← h.2]
    exact h.1.positive
  have hle := List.card_nsmul_le_sum (entries.map size) 1 (by
    intro n hn
    obtain ⟨x, hx, rfl⟩ := List.mem_map.mp hn
    exact hpositive x hx)
  rwa [List.length_map, smul_eq_mul, Nat.mul_one] at hle

/-- **The number of levels does not exceed its 32 bits.** -/
theorem SumTree.Growing.depth_lt (h : tree.Growing size bucketSize entries)
    (hbound : totalSize size entries < 2 ^ 64) : tree.depth + 1 < 2 ^ 32 := by
  have hlt : tree.depth < 64 := by
    rcases h.depth with hzero | hpow
    · omega
    · exact (Nat.pow_lt_pow_iff_right (by decide : 1 < 2)).mp
        ((hpow.trans h.represents.length_le).trans_lt hbound)
  omega

/-- **`add`** appends the element unless it is empty. -/
theorem SumTree.Growing.add (hcap : 2 ≤ bucketSize) (h : tree.Growing size bucketSize entries)
    (hbound : totalSize size entries + size e < 2 ^ 64) :
    (tree.add size bucketSize e).Growing size bucketSize (if size e = 0 then entries else entries ++ [e]) := by
  have hdepth : tree.depth + 1 < 2 ^ 32 := h.depth_lt (by omega)
  have hrep := h.represents.add (e := e) (by omega : 1 ≤ bucketSize) hbound (Or.inr (Or.inr ⟨hcap, hdepth⟩))
  refine ⟨hrep, ?_, ?_⟩
  all_goals
    unfold SumTree.add
    split
  · exact h.packed
  · dsimp only
    split
    · exact h.packed.add hcap
    · refine Bucket.Packed.add hcap ?_
      rw [Nat.mod_eq_of_lt hdepth]
      exact ⟨by simp, List.forall_mem_singleton.mpr (h.packed.add hcap)⟩
  · exact h.depth
  · dsimp only
    rw [List.length_append]
    split
    · exact h.depth.imp_right fun hle => hle.trans (Nat.le_add_right _ _)
    · -- the full tree has two entries on every level
      rename_i hadded
      have hfull := h.packed.full hcap (Bool.eq_false_iff.mpr hadded)
      rw [h.represents.2] at hfull
      rw [Nat.mod_eq_of_lt hdepth]
      exact Or.inr (hfull.trans (Nat.le_add_right _ _))

theorem SumTree.Growing.foldl_add (hcap : 2 ≤ bucketSize) (xs : List α)
    (h : tree.Growing size bucketSize entries) (hbound : totalSize size entries + totalSize size xs < 2 ^ 64) :
    (xs.foldl (SumTree.add size bucketSize) tree).Growing size bucketSize
      (entries ++ xs.filter fun x => size x ≠ 0) := by
  induction xs generalizing tree entries with
  | nil => simpa using h
  | cons x xs ih =>
    rw [totalSize_cons] at hbound
    have hadd := h.add (e := x) hcap (by omega)
    by_cases hzero : size x = 0
    · rw [if_pos hzero] at hadd
      rw [List.foldl_cons, List.filter_cons_of_neg (by simpa using hzero)]
      exact ih hadd (by omega)
    · rw [if_neg hzero] at hadd
      have hrest := ih hadd (by rw [totalSize_append, totalSize_cons, totalSize_nil]; omega)
      rw [List.append_assoc, List.singleton_append] at hrest
      rwa [List.foldl_cons, List.filter_cons_of_pos (by simpa using hzero)]

/-- **The tree behind the loop over all rows.** -/
theorem SumTree.represents_foldl_add (hcap : 2 ≤ bucketSize) (xs : List α)
    (hbound : totalSize size xs < 2 ^ 64) :
    (xs.foldl (SumTree.add size bucketSize) {}).Represents size bucketSize (xs.filter fun x => size x ≠ 0) := by
  have hempty : SumTree.Growing size bucketSize ({} : SumTree α) [] :=
    ⟨SumTree.represents_nil size bucketSize, trivial, Or.inl rfl⟩
  have h := hempty.foldl_add hcap xs (by rwa [totalSize_nil, Nat.zero_add])
  rw [List.nil_append] at h
  exact h.represents

end FailStar
