import FailStar.Util.SumTreeGrowth

/-! # Iterating over a sum tree

`TreeIterator` walks through the elements of a tree with a stack of buckets and indexes. Nothing is assumed about
the sizes: the sums of a tree may wrap, and buckets may have room for one entry only.

* **`Bucket.goDown`**, **`TreeIterator.goUp`**, **`TreeIterator.next`** — the moves of the iterator; **`visit`**
  — the loop from `begin()` to `end()`.
* **`Bucket.Shaped`** — all leaves at the same depth, no empty child, and sums modulo `2 ^ 64`; it is kept by
  `add` and `remove` for all sizes.
* **`iteration_complete_iff`** — the loop visits what is contained in the tree unless nothing is. -/

namespace FailStar

/-! ## The iterator -/

section Iterator

variable {α : Type*}

/-- `hierarchy`: buckets and corresponding element indexes down the tree, with the top of the stack in front.
`end()` is the iterator without any. -/
abbrev TreeIterator (α : Type*) := List (Bucket α × ℕ)

/-- Push the bucket, and go down until we see leaves. -/
def Bucket.goDown : Bucket α → TreeIterator α → TreeIterator α
  | ⟨size, child :: children, []⟩, hierarchy => child.goDown ((⟨size, child :: children, []⟩, 0) :: hierarchy)
  | node, hierarchy => (node, 0) :: hierarchy

namespace TreeIterator

/-- The current level is exhausted: go back up to a not yet finished level, and down again. -/
def goUp : TreeIterator α → TreeIterator α
  | [] => []
  | (node, index) :: hierarchy =>
    match node.children[(index + 1) % 2 ^ 32]? with
    | none => goUp hierarchy
    | some child => child.goDown ((node, (index + 1) % 2 ^ 32) :: hierarchy)

/-- `operator++`. It is not called at the end. -/
def next : TreeIterator α → TreeIterator α
  | [] => []
  | (node, index) :: hierarchy =>
    if (index + 1) % 2 ^ 32 < node.elements.length then (node, (index + 1) % 2 ^ 32) :: hierarchy
    else goUp hierarchy

/-- `operator*`, if there is an element. -/
def deref : TreeIterator α → Option α
  | [] => none
  | (node, index) :: _ => node.elements[index]?

end TreeIterator

/-- `begin()`. -/
def SumTree.begin (tree : SumTree α) : TreeIterator α := tree.root.goDown []

/-- **The loop** from an iterator to `end()`, for a number of steps: the elements it visits. It has no result if
it dereferences a missing element, or if the steps do not suffice. -/
def visit : ℕ → TreeIterator α → Option (List α)
  | _, [] => some []
  | 0, _ :: _ => none
  | n + 1, top :: hierarchy =>
    (TreeIterator.deref (top :: hierarchy)).bind fun x =>
      (visit n (TreeIterator.next (top :: hierarchy))).map fun xs => x :: xs

/-- The loop ends, and has visited the elements of the list. -/
def Visits (it : TreeIterator α) (xs : List α) : Prop := ∃ n, visit n it = some xs

variable {it hierarchy : TreeIterator α} {node child : Bucket α} {x : α} {xs rest : List α} {i : ℕ}

theorem visits_end : Visits ([] : TreeIterator α) [] := ⟨0, rfl⟩

theorem Visits.step (hderef : it.deref = some x) (h : Visits it.next xs) : Visits it (x :: xs) := by
  obtain ⟨n, hn⟩ := h
  cases it with
  | nil => cases hderef
  | cons top hierarchy =>
    refine ⟨n + 1, ?_⟩
    rw [visit, hderef, Option.bind_some, hn]
    rfl

/-- A loop that begins with a missing element has no result. -/
theorem not_visits_of_deref (hne : it ≠ []) (hderef : it.deref = none) : ¬ Visits it xs := by
  rintro ⟨n, hn⟩
  obtain ⟨top, hierarchy, rfl⟩ := List.exists_cons_of_ne_nil hne
  cases n with
  | zero => cases hn
  | succ n =>
    rw [visit, hderef] at hn
    cases hn

theorem Bucket.goDown_of_elements (h : node.children = []) : node.goDown hierarchy = (node, 0) :: hierarchy := by
  obtain ⟨size, children, elements⟩ := node
  obtain rfl : children = [] := h
  rw [Bucket.goDown]
  simp

theorem Bucket.goDown_of_children (helements : node.elements = []) (hchild : node.children[0]? = some child) :
    node.goDown hierarchy = child.goDown ((node, 0) :: hierarchy) := by
  obtain ⟨size, children, elements⟩ := node
  obtain rfl : elements = [] := helements
  cases children with
  | nil => cases hchild
  | cons first children =>
    obtain rfl : first = child := Option.some.inj hchild
    rw [Bucket.goDown]

theorem TreeIterator.goUp_of_some (hi : i + 1 < 2 ^ 32) (hchild : node.children[i + 1]? = some child) :
    goUp ((node, i) :: hierarchy) = child.goDown ((node, i + 1) :: hierarchy) := by
  rw [goUp, Nat.mod_eq_of_lt hi, hchild]

theorem TreeIterator.goUp_of_none (hi : i + 1 < 2 ^ 32) (hchild : node.children[i + 1]? = none) :
    goUp ((node, i) :: hierarchy) = goUp hierarchy := by
  rw [goUp, Nat.mod_eq_of_lt hi, hchild]

end Iterator

/-! ## The shape of a tree -/

variable {α : Type*} {size : α → ℕ} {bucketSize d : ℕ} {node child : Bucket α} {e x : α}

/-- A leaf. -/
structure Bucket.LeafShape (size : α → ℕ) (bucketSize : ℕ) (node : Bucket α) : Prop where
  children : node.children = []
  capacity : node.elements.length ≤ bucketSize
  sum : node.size = totalSize size node.elements % 2 ^ 64

/-- An inner node, given what the children are like. -/
structure Bucket.InnerShape (size : α → ℕ) (bucketSize d : ℕ) (shaped : Bucket α → Prop) (node : Bucket α) :
    Prop where
  elements : node.elements = []
  capacity : node.children.length ≤ bucketSize
  sum : node.size = totalSize size (node.entries (d + 1)) % 2 ^ 64
  child : ∀ child ∈ node.children, child.entries d ≠ [] ∧ shaped child

/-- **The shape of a node** with leaves `d` levels below it. -/
def Bucket.Shaped (size : α → ℕ) (bucketSize : ℕ) : ℕ → Bucket α → Prop
  | 0 => Bucket.LeafShape size bucketSize
  | d + 1 => Bucket.InnerShape size bucketSize d (Bucket.Shaped size bucketSize d)

theorem Bucket.shaped_empty (size : α → ℕ) (bucketSize d : ℕ) :
    Bucket.Shaped size bucketSize d ({} : Bucket α) := by
  cases d with
  | zero => exact ⟨rfl, Nat.zero_le _, rfl⟩
  | succ d => exact ⟨rfl, Nat.zero_le _, rfl, by simp⟩

/-- **A node knows the sum** of the sizes, modulo `2 ^ 64`. -/
theorem Bucket.Shaped.size_eq (h : node.Shaped size bucketSize d) :
    node.size = totalSize size (node.entries d) % 2 ^ 64 := by
  cases d with
  | zero => exact h.sum
  | succ d => exact h.sum

/-- What is contained in a node, on any level. -/
inductive Bucket.Contains (x : α) : Bucket α → Prop
  | element {node : Bucket α} : x ∈ node.elements → Bucket.Contains x node
  | inChild {node child : Bucket α} : child ∈ node.children → Bucket.Contains x child → Bucket.Contains x node

theorem Bucket.Shaped.contains_iff (h : node.Shaped size bucketSize d) :
    node.Contains x ↔ x ∈ node.entries d := by
  induction d generalizing node with
  | zero =>
    refine ⟨fun hx => ?_, Bucket.Contains.element⟩
    cases hx with
    | element hx => exact hx
    | inChild hchild =>
      rw [h.children] at hchild
      cases hchild
  | succ d ih =>
    rw [Bucket.entries, List.mem_flatMap]
    constructor
    · intro hx
      cases hx with
      | element hx =>
        rw [h.elements] at hx
        cases hx
      | inChild hchild hx => exact ⟨_, hchild, (ih (h.child _ hchild).2).mp hx⟩
    · rintro ⟨child, hchild, hx⟩
      exact Bucket.Contains.inChild hchild ((ih (h.child child hchild).2).mpr hx)

/-! ## Walking through a tree -/

section Walk

variable {hierarchy : TreeIterator α} {rest : List α}

theorem visits_leaf (hlength : node.elements.length < 2 ^ 32) (hrest : Visits hierarchy.goUp rest) {i : ℕ}
    (hi : i < node.elements.length) : Visits ((node, i) :: hierarchy) (node.elements.drop i ++ rest) := by
  -- from the last element backwards
  induction hn : node.elements.length - i generalizing i with
  | zero => omega
  | succ n ih =>
    rw [List.drop_eq_getElem_cons hi, List.cons_append]
    refine Visits.step (List.getElem?_eq_getElem hi) ?_
    rw [TreeIterator.next, Nat.mod_eq_of_lt (by omega)]
    by_cases hlast : i + 1 < node.elements.length
    · rw [if_pos hlast]
      exact ih hlast (by omega)
    · rw [if_neg hlast, List.drop_eq_nil_of_le (Nat.not_lt.mp hlast)]
      exact hrest

/-- The children of an inner node from an index on, given that the loop gets through every child. -/
theorem visits_children (hlength : node.children.length < 2 ^ 32) (hrest : Visits hierarchy.goUp rest)
    (hchild :
      ∀ child ∈ node.children, ∀ (hierarchy : TreeIterator α) (rest : List α), Visits hierarchy.goUp rest →
      Visits (child.goDown hierarchy) (child.entries d ++ rest)) {i : ℕ} (hi : node.children[i]? = some child) :
    Visits (child.goDown ((node, i) :: hierarchy))
    ((node.children.drop i).flatMap (Bucket.entries d) ++ rest) := by
  induction hn : node.children.length - i generalizing i child with
  | zero =>
    rw [List.getElem?_eq_none (by omega)] at hi
    cases hi
  | succ n ih =>
    obtain ⟨hlt, rfl⟩ := List.getElem?_eq_some_iff.mp hi
    rw [List.drop_eq_getElem_cons hlt, List.flatMap_cons, List.append_assoc]
    -- behind the child the loop goes on with its right sibling, or above
    refine hchild _ (List.getElem_mem hlt) _ _ ?_
    cases hnext : node.children[i + 1]? with
    | none =>
      rw [TreeIterator.goUp_of_none (by omega) hnext,
        List.drop_eq_nil_of_le (List.getElem?_eq_none_iff.mp hnext)]
      exact hrest
    | some sibling =>
      rw [TreeIterator.goUp_of_some (by omega) hnext]
      exact ih hnext (by omega)

/-- **The loop gets through a node** that is not empty, and goes on above it. -/
theorem Bucket.Shaped.visits (h : node.Shaped size bucketSize d) (hbucket : bucketSize < 2 ^ 32)
    (hne : node.entries d ≠ []) (hrest : Visits hierarchy.goUp rest) :
    Visits (node.goDown hierarchy) (node.entries d ++ rest) := by
  induction d generalizing node hierarchy rest with
  | zero =>
    have hcapacity := h.capacity
    rw [Bucket.goDown_of_elements h.children]
    exact visits_leaf (by omega) hrest (List.length_pos_of_ne_nil hne)
  | succ d ih =>
    have hcapacity := h.capacity
    obtain ⟨child, hchild⟩ : ∃ child, node.children[0]? = some child := by
      cases hchildren : node.children with
      | nil => exact absurd (by rw [Bucket.entries, hchildren]; rfl) hne
      | cons child children => exact ⟨child, rfl⟩
    rw [Bucket.goDown_of_children h.elements hchild]
    exact visits_children (by omega) hrest
      (fun child hmem hierarchy rest => ih (h.child child hmem).2 (h.child child hmem).1) hchild

/-- A node without entries has nothing below it. -/
theorem Bucket.Shaped.eq_nil_of_entries (h : node.Shaped size bucketSize d) (hnil : node.entries d = []) :
    node.elements = [] ∧ node.children = [] := by
  cases d with
  | zero => exact ⟨hnil, h.children⟩
  | succ d =>
    refine ⟨h.elements, List.eq_nil_iff_forall_not_mem.mpr fun child hchild => (h.child child hchild).1 ?_⟩
    exact List.flatMap_eq_nil_iff.mp hnil child hchild

/-- **The iterator of an empty tree** is not at its end, and there is no element. -/
theorem Bucket.Shaped.not_visits (h : node.Shaped size bucketSize d) (hnil : node.entries d = []) (xs : List α) :
    ¬ Visits (node.goDown []) xs := by
  obtain ⟨helements, hchildren⟩ := h.eq_nil_of_entries hnil
  rw [Bucket.goDown_of_elements hchildren]
  refine not_visits_of_deref (List.cons_ne_nil _ _) ?_
  rw [TreeIterator.deref, helements]
  rfl

end Walk

/-! ## Adding an entry -/

theorem Bucket.Shaped.concat (h : node.Shaped size bucketSize (d + 1)) {children : List (Bucket α)}
    (hchild : ∀ child ∈ children, child.entries d ≠ [] ∧ child.Shaped size bucketSize d)
    (hcapacity : children.length ≤ bucketSize)
    (hentries : children.flatMap (Bucket.entries d) = node.entries (d + 1) ++ [e]) :
    Bucket.Shaped size bucketSize (d + 1) { node with children, size := (node.size + size e) % 2 ^ 64 } := by
  refine ⟨h.elements, hcapacity, ?_, hchild⟩
  show (node.size + size e) % 2 ^ 64 = totalSize size (children.flatMap (Bucket.entries d)) % 2 ^ 64
  rw [hentries, totalSize_concat, h.sum, Nat.mod_add_mod]

/-- **The recursive `add`** appends the element, or leaves the node as it is. -/
theorem Bucket.Shaped.add (hcap : 1 ≤ bucketSize) (h : node.Shaped size bucketSize d) (e : α) :
    (node.add size bucketSize e d).2.Shaped size bucketSize d ∧
      (node.add size bucketSize e d).2.entries d =
        if (node.add size bucketSize e d).1 then node.entries d ++ [e] else node.entries d := by
  induction d generalizing node with
  | zero =>
    rw [Bucket.add]
    by_cases hroom : node.elements.length < bucketSize
    · rw [if_pos hroom]
      refine ⟨⟨h.children, ?_, ?_⟩, rfl⟩
      · rw [List.length_append]
        exact hroom
      · show (node.size + size e) % 2 ^ 64 = totalSize size (node.elements ++ [e]) % 2 ^ 64
        rw [totalSize_concat, h.sum, Nat.mod_add_mod]
    · rw [if_neg hroom]
      exact ⟨h, rfl⟩
  | succ d ih =>
    -- a new bucket takes the element
    obtain ⟨hfresh, hfreshEntries⟩ := ih (Bucket.shaped_empty size bucketSize d)
    rw [Bucket.add_empty hcap, if_pos rfl, Bucket.entries_empty, List.nil_append] at hfreshEntries
    have hfreshNe : (Bucket.add size bucketSize e d {}).2.entries d ≠ [] := by
      rw [hfreshEntries]
      exact List.cons_ne_nil _ _
    rcases List.eq_nil_or_concat' node.children with hnil | ⟨children, newest, hchildren⟩
    · have hentries : [(Bucket.add size bucketSize e d {}).2].flatMap (Bucket.entries d) =
          node.entries (d + 1) ++ [e] := by
        rw [List.flatMap_singleton, hfreshEntries, Bucket.entries, hnil]
        rfl
      rw [Bucket.add_succ_of_nil hnil (Prod.ext (Bucket.add_empty hcap d) rfl)]
      exact ⟨h.concat (List.forall_mem_singleton.mpr ⟨hfreshNe, hfresh⟩) hcap hentries, hentries⟩
    · have hchild := h.child
      have hcapacity := h.capacity
      rw [hchildren] at hchild hcapacity
      obtain ⟨hfront, hnewest⟩ := List.forall_mem_append.mp hchild
      obtain ⟨hnewestNe, hnewestShaped⟩ := List.forall_mem_singleton.mp hnewest
      obtain ⟨hadded, haddedEntries⟩ := ih hnewestShaped
      have hentries : node.entries (d + 1) = children.flatMap (Bucket.entries d) ++ newest.entries d := by
        rw [Bucket.entries, hchildren, List.flatMap_append, List.flatMap_singleton]
      rw [Bucket.add_concat hchildren]
      cases hnewestAdd : (newest.add size bucketSize e d).1 with
      | true =>
        rw [hnewestAdd, if_pos rfl] at haddedEntries
        rw [if_pos rfl]
        have hentries' : (children ++ [(newest.add size bucketSize e d).2]).flatMap (Bucket.entries d) =
            node.entries (d + 1) ++ [e] := by
          rw [List.flatMap_append, List.flatMap_singleton, haddedEntries, hentries, List.append_assoc]
        refine ⟨h.concat (List.forall_mem_append.mpr ⟨hfront, List.forall_mem_singleton.mpr ⟨?_, hadded⟩⟩)
          (by simpa using hcapacity) hentries', hentries'⟩
        rw [haddedEntries]
        exact List.append_ne_nil_of_right_ne_nil _ (List.cons_ne_nil _ _)
      | false =>
        -- the newest child is full, and stays as it is
        rw [if_neg Bool.false_ne_true, Bucket.add_of_full hcap hnewestAdd, ← hchildren]
        by_cases hroom : children.length + 1 < bucketSize
        · rw [if_pos hroom]
          have hentries' : (node.children ++ [(Bucket.add size bucketSize e d {}).2]).flatMap
              (Bucket.entries d) =
                node.entries (d + 1) ++ [e] := by
            rw [List.flatMap_append, List.flatMap_singleton, hfreshEntries]
            rfl
          refine ⟨h.concat (List.forall_mem_append.mpr
            ⟨h.child, List.forall_mem_singleton.mpr ⟨hfreshNe, hfresh⟩⟩) ?_ hentries', hentries'⟩
          rw [hchildren, List.length_append, List.length_append]
          exact hroom
        · rw [if_neg hroom]
          cases node
          exact ⟨h, rfl⟩

theorem Bucket.Shaped.pushDown (hcap : 1 ≤ bucketSize) (h : node.Shaped size bucketSize d)
    (hne : node.entries d ≠ []) :
    Bucket.Shaped size bucketSize (d + 1) { children := [node], size := node.size } := by
  refine ⟨rfl, hcap, ?_, List.forall_mem_singleton.mpr ⟨hne, h⟩⟩
  rw [Bucket.entries, List.flatMap_singleton]
  exact h.size_eq

theorem Bucket.Shaped.entries_ne_nil (hcap : 1 ≤ bucketSize) (h : node.Shaped size bucketSize d)
    (hfull : (node.add size bucketSize e d).1 = false) : node.entries d ≠ [] := by
  intro hnil
  obtain ⟨helements, hchildren⟩ := h.eq_nil_of_entries hnil
  cases d with
  | zero =>
    rw [Bucket.add, if_pos (by rw [helements]; exact hcap)] at hfull
    cases hfull
  | succ d =>
    rw [Bucket.add_succ_of_nil hchildren (Prod.ext (Bucket.add_empty hcap d) rfl)] at hfull
    cases hfull

/-- The shape of a tree. -/
def SumTree.Shaped (size : α → ℕ) (bucketSize : ℕ) (tree : SumTree α) : Prop :=
  tree.root.Shaped size bucketSize tree.depth

/-- The entries of a tree, from left to right. -/
def SumTree.entries (tree : SumTree α) : List α := tree.root.entries tree.depth

variable {tree tree' : SumTree α}

/-- **`add`** keeps the shape. The element is the last entry, unless it is empty or there is no room for it. -/
theorem SumTree.Shaped.add (hcap : 1 ≤ bucketSize) (h : tree.Shaped size bucketSize)
    (hdepth : tree.depth + 1 < 2 ^ 32) (e : α) :
    (tree.add size bucketSize e).Shaped size bucketSize ∧
      ((tree.add size bucketSize e).entries = tree.entries ∨
        (tree.add size bucketSize e).entries = tree.entries ++ [e]) := by
  rw [SumTree.add]
  split
  · exact ⟨h, Or.inl rfl⟩
  · obtain ⟨hroot, hentries⟩ := Bucket.Shaped.add hcap h e
    dsimp only
    split
    · rename_i hadded
      rw [hadded, if_pos rfl] at hentries
      exact ⟨hroot, Or.inr hentries⟩
    · -- the old root becomes the only child of a new one, which has room
      rename_i hadded
      have hfull := Bool.eq_false_iff.mpr hadded
      rw [Bucket.add_of_full hcap hfull, Nat.mod_eq_of_lt hdepth]
      obtain ⟨hretry, hentries⟩ :=
        (Bucket.Shaped.pushDown hcap h (Bucket.Shaped.entries_ne_nil hcap h hfull)).add hcap e
      refine ⟨hretry, ?_⟩
      have hdown : Bucket.entries (tree.depth + 1) { children := [tree.root], size := tree.root.size } =
          tree.entries := List.flatMap_singleton _ _
      rw [hdown] at hentries
      show Bucket.entries _ _ = _ ∨ Bucket.entries _ _ = _
      rw [hentries]
      split
      · exact Or.inr rfl
      · exact Or.inl rfl

/-! ## Removing an entry -/

/-- The entries behind the removal of an element, and the sum of their sizes. With sums that wrap, a child is
erased as soon as its sum does. -/
structure Removed (size : α → ℕ) (e : α) (entries entries' : List α) : Prop where
  sublist : entries'.Sublist entries
  sum : (totalSize size entries' + size e) % 2 ^ 64 = totalSize size entries % 2 ^ 64

theorem Removed.append_left {entries entries' : List α} (h : Removed size e entries entries') (front : List α) :
    Removed size e (front ++ entries) (front ++ entries') := by
  refine ⟨h.sublist.append_left front, ?_⟩
  rw [totalSize_append, totalSize_append, Nat.add_assoc, Nat.add_mod, h.sum, ← Nat.add_mod]

theorem Removed.append_right {entries entries' : List α} (h : Removed size e entries entries') (back : List α) :
    Removed size e (entries ++ back) (entries' ++ back) := by
  refine ⟨h.sublist.append_right back, ?_⟩
  rw [totalSize_append, totalSize_append, Nat.add_right_comm, Nat.add_mod, h.sum, ← Nat.add_mod]

/-- A child whose sum is 0 is erased. -/
theorem Removed.erase {entries entries' : List α} (h : Removed size e entries entries')
    (hzero : totalSize size entries' % 2 ^ 64 = 0) : Removed size e entries [] := by
  refine ⟨List.nil_sublist entries, ?_⟩
  have hsum := h.sum
  rw [totalSize_nil]
  omega

theorem removed_of_removeElements {pos sum : ℕ} {elements elements' : List α}
    (h : removeElements size pos elements sum = .ok (e, elements')) : Removed size e elements elements' := by
  induction elements generalizing sum elements' with
  | nil => cases h
  | cons x elements ih =>
    rw [removeElements] at h
    dsimp only at h
    split at h
    · cases hrest : removeElements size pos elements ((sum + size x) % 2 ^ 64) with
      | error => rw [hrest] at h; cases h
      | ok r =>
        rw [hrest] at h
        obtain ⟨rfl, rfl⟩ := Prod.mk.inj (Except.ok.inj h)
        exact (ih hrest).append_left [x]
    · obtain ⟨rfl, rfl⟩ := Prod.mk.inj (Except.ok.inj h)
      refine ⟨List.sublist_cons_self x elements, ?_⟩
      rw [totalSize_cons, Nat.add_comm]

/-- A node behind the removal of an element. -/
def Bucket.RemovedFrom (size : α → ℕ) (bucketSize d : ℕ) (node : Bucket α) (e : α) (node' : Bucket α) : Prop :=
  node'.Shaped size bucketSize d ∧ Removed size e (node.entries d) (node'.entries d)

/-- **The loop of `remove` over the children**, given what happens to the child that contains the number. -/
theorem removed_of_removeChildren {pos sum : ℕ} {children children' : List (Bucket α)} {elements : List α}
    (hshaped : ∀ child ∈ children, child.entries d ≠ [] ∧ child.Shaped size bucketSize d)
    (hchild : ∀ child ∈ children, ∀ sum e child', child.remove size pos sum = .ok (e, child') →
      child.RemovedFrom size bucketSize d e child')
    (h : removeChildren size pos [] children sum = .ok (e, children', elements)) :
    elements = [] ∧ children'.length ≤ children.length ∧
      (∀ child ∈ children', child.entries d ≠ [] ∧ child.Shaped size bucketSize d) ∧
      Removed size e (children.flatMap (Bucket.entries d)) (children'.flatMap (Bucket.entries d)) := by
  induction children generalizing sum children' with
  | nil => cases h
  | cons child children ih =>
    obtain ⟨hfirst, hothers⟩ := List.forall_mem_cons.mp hshaped
    obtain ⟨hremove, hremoveOthers⟩ := List.forall_mem_cons.mp hchild
    rw [removeChildren] at h
    dsimp only at h
    rw [List.flatMap_cons]
    split at h
    · cases hrest : removeChildren size pos [] children ((sum + child.size) % 2 ^ 64) with
      | error => rw [hrest] at h; cases h
      | ok r =>
        rw [hrest] at h
        obtain ⟨rfl, hpair⟩ := Prod.mk.inj (Except.ok.inj h)
        obtain ⟨rfl, rfl⟩ := Prod.mk.inj hpair
        obtain ⟨helements, hlength, hshaped', hremoved⟩ := ih hothers hremoveOthers hrest
        refine ⟨helements, Nat.succ_le_succ hlength, List.forall_mem_cons.mpr ⟨hfirst, hshaped'⟩, ?_⟩
        rw [List.flatMap_cons]
        exact hremoved.append_left _
    · cases hfound : child.remove size pos (((sum + child.size) % 2 ^ 64 + 2 ^ 64 - child.size) % 2 ^ 64) with
      | error => rw [hfound] at h; cases h
      | ok r =>
        rw [hfound] at h
        obtain ⟨rfl, hpair⟩ := Prod.mk.inj (Except.ok.inj h)
        obtain ⟨rfl, rfl⟩ := Prod.mk.inj hpair
        obtain ⟨hshaped', hremoved⟩ := hremove _ _ _ hfound
        have hsum := hshaped'.size_eq
        refine ⟨rfl, ?_⟩
        by_cases hzero : r.2.size = 0
        · -- the child is erased, with what is left in it
          rw [if_pos hzero]
          rw [hzero] at hsum
          exact ⟨Nat.le_succ _, hothers, (hremoved.erase hsum.symm).append_right _⟩
        · rw [if_neg hzero]
          have hne : r.2.entries d ≠ [] := by
            intro hnil
            rw [hnil, totalSize_nil] at hsum
            exact hzero hsum
          exact ⟨le_rfl, List.forall_mem_cons.mpr ⟨⟨hne, hshaped'⟩, hothers⟩, hremoved.append_right _⟩

theorem Removed.size_eq {entries entries' : List α} (h : Removed size e entries entries') (he : size e < 2 ^ 64)
    {total : ℕ} (htotal : total = totalSize size entries % 2 ^ 64) :
    (total + 2 ^ 64 - size e) % 2 ^ 64 = totalSize size entries' % 2 ^ 64 := by
  have hsum := h.sum
  omega

/-- **The recursive `remove`** keeps the shape. -/
theorem Bucket.Shaped.remove (hsize : ∀ e, size e < 2 ^ 64) (h : node.Shaped size bucketSize d) {pos sum : ℕ}
    {node' : Bucket α} (hremove : node.remove size pos sum = .ok (e, node')) :
    node.RemovedFrom size bucketSize d e node' := by
  -- at depth 0 the elements are searched, above it the children
  induction d generalizing node sum e node' with
  | zero =>
    obtain ⟨total, children, elements⟩ := node
    obtain ⟨hchildren, hcapacity, hsum⟩ := h
    obtain rfl : children = [] := hchildren
    rw [Bucket.remove] at hremove
    split at hremove
    · rw [removeChildren] at hremove
      cases hfound : removeElements size pos elements sum with
      | error => rw [hfound] at hremove; cases hremove
      | ok r =>
        rw [hfound] at hremove
        obtain ⟨rfl, rfl⟩ := Prod.mk.inj (Except.ok.inj hremove)
        have hremoved := removed_of_removeElements hfound
        exact ⟨⟨rfl, hremoved.sublist.length_le.trans hcapacity, hremoved.size_eq (hsize r.1) hsum⟩, hremoved⟩
    · cases hremove
  | succ d ih =>
    obtain ⟨total, children, elements⟩ := node
    obtain ⟨helements, hcapacity, hsum, hchild⟩ := h
    obtain rfl : elements = [] := helements
    rw [Bucket.remove] at hremove
    split at hremove
    · cases hfound : removeChildren size pos [] children sum with
      | error => rw [hfound] at hremove; cases hremove
      | ok r =>
        rw [hfound] at hremove
        obtain ⟨rfl, rfl⟩ := Prod.mk.inj (Except.ok.inj hremove)
        obtain ⟨helements, hlength, hshaped, hremoved⟩ := removed_of_removeChildren hchild
          (fun child hmem sum e child' => ih (hchild child hmem).2) hfound
        exact ⟨⟨helements, hlength.trans hcapacity, hremoved.size_eq (hsize r.1) hsum, hshaped⟩, hremoved⟩
    · cases hremove

/-- **`remove`** keeps the shape, and the order of the entries that are left. -/
theorem SumTree.Shaped.remove (hsize : ∀ e, size e < 2 ^ 64) (h : tree.Shaped size bucketSize) {pos : ℕ}
    (hremove : tree.remove size pos = .ok (e, tree')) :
    tree'.Shaped size bucketSize ∧ tree'.entries.Sublist tree.entries := by
  rw [SumTree.remove] at hremove
  cases hfound : tree.root.remove size pos 0 with
  | error => rw [hfound] at hremove; cases hremove
  | ok r =>
    rw [hfound] at hremove
    obtain ⟨rfl, rfl⟩ := Prod.mk.inj (Except.ok.inj hremove)
    obtain ⟨hshaped, hremoved⟩ := Bucket.Shaped.remove hsize h hfound
    exact ⟨hshaped, hremoved.sublist⟩

/-! ## Iteration -/

/-- A tree whose elements are numbered in the order in which they are added. -/
structure NumberedTree (α : Type*) where
  tree : SumTree (ℕ × α) := {}
  /-- The number of elements that have been passed to `add`. -/
  added : ℕ := 0

/-- The operations, as long as no assertion fails. -/
def NumberedTree.step (size : α → ℕ) (bucketSize : ℕ) (s : NumberedTree α) :
    SumTreeOp α → Option (NumberedTree α)
  | .add element =>
    some { tree := s.tree.add (size ∘ Prod.snd) bucketSize (s.added, element), added := s.added + 1 }
  | .get pos => (s.tree.get (size ∘ Prod.snd) pos).toOption.map fun _ => s
  | .remove pos => (s.tree.remove (size ∘ Prod.snd) pos).toOption.map fun r => { s with tree := r.2 }

/-- The number of levels stays a 32-bit number. -/
def NumberedTree.Shallow (s : NumberedTree α) : SumTreeOp α → Prop
  | .add _ => s.tree.depth + 1 < 2 ^ 32
  | .get _ => True
  | .remove _ => True

instance (s : NumberedTree α) : (op : SumTreeOp α) → Decidable (s.Shallow op)
  | .add _ => inferInstanceAs (Decidable (s.tree.depth + 1 < 2 ^ 32))
  | .get _ => inferInstanceAs (Decidable True)
  | .remove _ => inferInstanceAs (Decidable True)

/-- **Iteration is complete**: the loop from `begin()` to `end()` terminates without dereferencing a missing
element, and visits exactly what is contained in the tree, in the order of insertion. -/
def SumTree.IteratesCompletely (tree : SumTree (ℕ × α)) : Prop :=
  ∃ n visited, visit n tree.begin = some visited ∧ visited.Pairwise (fun x y => x.1 < y.1) ∧
    ∀ x, x ∈ visited ↔ tree.root.Contains x

/-- The entries are in the order of insertion. -/
structure NumberedTree.Ordered (size : α → ℕ) (bucketSize : ℕ) (s : NumberedTree α) : Prop where
  shaped : s.tree.Shaped (size ∘ Prod.snd) bucketSize
  increasing : s.tree.entries.Pairwise fun x y => x.1 < y.1
  numbered : ∀ x ∈ s.tree.entries, x.1 < s.added

variable {s s' : NumberedTree α}

/-- **One operation** keeps the order. -/
theorem NumberedTree.Ordered.step (hcap : 1 ≤ bucketSize) (hsize : ∀ e, size e < 2 ^ 64)
    (h : s.Ordered size bucketSize) {op : SumTreeOp α} (hop : s.Shallow op)
    (hstep : s.step size bucketSize op = some s') : s'.Ordered size bucketSize := by
  cases op with
  | add element =>
    obtain rfl := Option.some.inj hstep
    obtain ⟨hshaped, hentries⟩ := h.shaped.add hcap hop (s.added, element)
    refine ⟨hshaped, ?_, ?_⟩
    all_goals rcases hentries with hsame | hconcat
    · exact hsame ▸ h.increasing
    · -- the number of the new entry is larger than all others
      rw [hconcat, List.pairwise_append]
      refine ⟨h.increasing, List.pairwise_singleton _ _, fun x hx y hy => ?_⟩
      rw [List.mem_singleton.mp hy]
      exact h.numbered x hx
    · intro x hx
      exact Nat.lt_succ_of_lt (h.numbered x (hsame ▸ hx))
    · intro x hx
      rw [hconcat, List.mem_append, List.mem_singleton] at hx
      rcases hx with hx | rfl
      · exact Nat.lt_succ_of_lt (h.numbered x hx)
      · exact Nat.lt_succ_self _
  | get pos =>
    obtain ⟨-, -, rfl⟩ := Option.map_eq_some_iff.mp hstep
    exact h
  | remove pos =>
    rw [NumberedTree.step] at hstep
    cases hremove : s.tree.remove (size ∘ Prod.snd) pos with
    | error => rw [hremove] at hstep; cases hstep
    | ok r =>
      rw [hremove] at hstep
      obtain rfl := Option.some.inj hstep
      obtain ⟨hshaped, hsublist⟩ := h.shaped.remove (fun x : ℕ × α => hsize x.2) hremove
      exact ⟨hshaped, h.increasing.sublist hsublist, fun x hx => h.numbered x (hsublist.subset hx)⟩

theorem NumberedTree.ordered_of_reachable (hcap : 1 ≤ bucketSize) (hsize : ∀ e, size e < 2 ^ 64)
    (h : ReachableBy (NumberedTree.step size bucketSize) NumberedTree.Shallow {} s) :
    s.Ordered size bucketSize := by
  refine h.invariant ⟨Bucket.shaped_empty _ _ 0, List.Pairwise.nil, ?_⟩ fun s op s' hs hop hstep => ?_
  · intro x hx
    cases hx
  · exact hs.step hcap hsize hop hstep

/-- **Iteration is complete unless the tree is empty.** For all sizes, all buckets with room for an entry and all
sequences of operations, the loop over a tree visits exactly what is contained in it, in the order of insertion,
if and only if something is contained. The iterator of an empty tree does not equal `end()`, and is
dereferenced. -/
theorem iteration_complete_iff (size : α → ℕ) (hsize : ∀ e, size e < 2 ^ 64) (bucketSize : ℕ)
    (hcap : 1 ≤ bucketSize) (hbucket : bucketSize < 2 ^ 32) (s : NumberedTree α)
    (h : ReachableBy (NumberedTree.step size bucketSize) NumberedTree.Shallow {} s) :
    s.tree.IteratesCompletely ↔ ∃ x, s.tree.root.Contains x := by
  obtain ⟨hshaped, hincreasing, -⟩ := NumberedTree.ordered_of_reachable hcap hsize h
  have hcontains : ∀ x, s.tree.root.Contains x ↔ x ∈ s.tree.entries := fun x =>
    Bucket.Shaped.contains_iff hshaped
  simp only [SumTree.IteratesCompletely, hcontains]
  by_cases hnil : s.tree.entries = []
  · -- there is nothing to visit, but the loop begins
    rw [hnil]
    constructor
    · rintro ⟨n, visited, hvisit, -⟩
      exact absurd ⟨n, hvisit⟩ (Bucket.Shaped.not_visits hshaped hnil visited)
    · rintro ⟨x, hx⟩
      cases hx
  · have hend : Visits (TreeIterator.goUp ([] : TreeIterator (ℕ × α))) [] := visits_end
    obtain ⟨n, hvisit⟩ := Bucket.Shaped.visits hshaped hbucket hnil hend
    rw [List.append_nil] at hvisit
    exact ⟨fun _ => List.exists_mem_of_ne_nil _ hnil, fun _ => ⟨n, _, hvisit, hincreasing, fun x => Iff.rfl⟩⟩

/-- Additions and removals in buckets for two entries, with a bucket that is erased. -/
theorem iteration_complete_mixed :
    ∃ s : NumberedTree (Fin 10), ReachableBy (NumberedTree.step Fin.val 2) NumberedTree.Shallow {} s ∧
      s.tree.entries = [(2, 2), (4, 7), (5, 1)] ∧ s.tree.IteratesCompletely := by
  have hrun : (runBy (NumberedTree.step Fin.val 2) (fun s op => decide (s.Shallow op)) {}
      ([.add 3, .add 5, .add 2, .add 0, .add 7, .remove 4, .remove 0, .add 1] : List (SumTreeOp (Fin 10)))).map
        (fun s => s.tree.entries) = some [(2, 2), (4, 7), (5, 1)] := by decide +kernel
  obtain ⟨s, hs, hentries⟩ := Option.map_eq_some_iff.mp hrun
  have hreach := reachableBy_of_runBy _ hs
  refine ⟨s, hreach, hentries, ?_⟩
  rw [iteration_complete_iff Fin.val (fun e => e.isLt.trans (by decide)) 2 (by decide) (by decide) s hreach]
  refine ⟨(2, 2), ?_⟩
  rw [Bucket.Shaped.contains_iff (NumberedTree.ordered_of_reachable (by decide)
    (fun e : Fin 10 => e.isLt.trans (by decide)) hreach).shaped]
  show (2, 2) ∈ s.tree.entries
  rw [hentries]
  exact List.mem_cons_self

/-- **A tree that never got an element, and one whose last element was removed**: the iterator is not at its end,
and dereferences a missing element. -/
theorem empty_tree_is_dereferenced :
    ¬ SumTree.IteratesCompletely ({} : SumTree (ℕ × ℕ)) ∧
    ∃ s : NumberedTree ℕ, run (NumberedTree.step id 2) {} [.add 3, .remove 0] = some s ∧
      s.tree.begin ≠ [] ∧ s.tree.begin.deref = none ∧ ¬ s.tree.IteratesCompletely := by
  have hmissing : ∀ tree : SumTree (ℕ × ℕ), tree.begin ≠ [] → tree.begin.deref = none →
      ¬ tree.IteratesCompletely := by
    rintro tree hne hderef ⟨n, visited, hvisit, -⟩
    exact not_visits_of_deref hne hderef ⟨n, hvisit⟩
  refine ⟨hmissing _ (by decide) (by decide), ?_⟩
  have hrun : (run (NumberedTree.step id 2) {} ([.add 3, .remove 0] : List (SumTreeOp ℕ))).map
      (fun s => (s.tree.begin.length, s.tree.begin.deref)) = some (1, none) := by decide +kernel
  obtain ⟨s, hs, heq⟩ := Option.map_eq_some_iff.mp hrun
  obtain ⟨hlength, hderef⟩ := Prod.mk.inj heq
  have hne : s.tree.begin ≠ [] := List.ne_nil_of_length_pos (by omega)
  exact ⟨s, hs, hne, hderef, hmissing s.tree hne hderef⟩

end FailStar
