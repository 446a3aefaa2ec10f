import FailStar.Foundations.Reachability
import FailStar.Foundations.Roulette

/-! # The sum tree

`SumTree` keeps entries in a tree of buckets that know the sum of the sizes below them, so that a number
picks an entry without a search through all entries. Sizes are 64-bit numbers.

* **`SumTree.add`**, **`SumTree.get`**, **`SumTree.remove`** — the operations, on buckets with a capacity of
  `bucketSize`; `get` and `remove` fail where an assertion does.
* **`Bucket.WF`** — the representation invariant: all leaves at the same depth, sums, capacities, and no
  empty child; **`Bucket.entries`** — the list a bucket stands for.
* **`sumTree_refines_wheel`** — the tree behaves like naive roulette-wheel selection on this list, as long as
  buckets have room for two entries. -/

namespace FailStar

/-- `Bucket`: the sum of all children or elements, sub-buckets, and contained elements. -/
structure Bucket (α : Type*) where
  size : ℕ := 0
  children : List (Bucket α) := []
  elements : List α := []

/-- The assertions that can fail. -/
inductive SumTreeFailure
  /-- `assert(pos >= sum && pos < sum + node->size)`. -/
  | sanityCheck
  /-- `assert(0)`, in front of `return notfound`. -/
  | notFound
  deriving DecidableEq, Repr

section Operations

variable {α : Type*} (size : α → ℕ)

/-- The recursive version of `add`: whether the element was added, and the bucket. -/
def Bucket.add (bucketSize : ℕ) (element : α) : ℕ → Bucket α → Bool × Bucket α
  | 0, node =>
    if node.elements.length < bucketSize then
      (true, { node with
        elements := node.elements ++ [element], size := (node.size + size element) % 2 ^ 64 })
    else (false, node)
  | depthRemaining + 1, node =>
    -- no children yet?  create one.
    let children := if node.children.length = 0 then [{}] else node.children
    let (added, newest) := Bucket.add bucketSize element depthRemaining (children.getLastD {})
    let children := children.dropLast ++ [newest]
    if added then (true, { node with children, size := (node.size + size element) % 2 ^ 64 })
    -- newest child full, may we create another one?
    else if children.length < bucketSize then
      let (_, fresh) := Bucket.add bucketSize element depthRemaining {}
      (true, { node with children := children ++ [fresh], size := (node.size + size element) % 2 ^ 64 })
    else (false, { node with children })

/-- The loop of `get` over the elements of a leaf. -/
def getElements (pos : ℕ) : List α → ℕ → Except SumTreeFailure α
  | [], _ => .error .notFound
  | e :: elements, sum =>
    let sum := (sum + size e) % 2 ^ 64
    if sum ≤ pos then getElements pos elements sum else .ok e

mutual

/-- The recursive version of `get`. -/
def Bucket.get (pos : ℕ) : Bucket α → ℕ → Except SumTreeFailure α
  | ⟨total, children, elements⟩, sum =>
    if sum ≤ pos ∧ pos < (sum + total) % 2 ^ 64 then getChildren pos elements children sum
    else .error .sanityCheck

/-- The loop of `get` over the children of an inner node, and the loop over the elements behind it. -/
def getChildren (pos : ℕ) (elements : List α) : List (Bucket α) → ℕ → Except SumTreeFailure α
  | [], sum => getElements size pos elements sum
  | child :: children, sum =>
    let next := (sum + child.size) % 2 ^ 64
    if next ≤ pos then getChildren pos elements children next
    else Bucket.get pos child ((next + 2 ^ 64 - child.size) % 2 ^ 64)

end

/-- The loop of `remove` over the elements of a leaf: the element, and the elements that are left. -/
def removeElements (pos : ℕ) : List α → ℕ → Except SumTreeFailure (α × List α)
  | [], _ => .error .notFound
  | e :: elements, sum =>
    let sum := (sum + size e) % 2 ^ 64
    if sum ≤ pos then (removeElements pos elements sum).map fun (r, elements) => (r, e :: elements)
    else .ok (e, elements)

mutual

/-- The recursive version of `remove`: the element, and the node behind the call. -/
def Bucket.remove (pos : ℕ) : Bucket α → ℕ → Except SumTreeFailure (α × Bucket α)
  | ⟨total, children, elements⟩, sum =>
    if sum ≤ pos ∧ pos < (sum + total) % 2 ^ 64 then
      (removeChildren pos elements children sum).map fun (e, children, elements) =>
        (e, ⟨(total + 2 ^ 64 - size e) % 2 ^ 64, children, elements⟩)
    else .error .sanityCheck

/-- The loop of `remove` over the children of an inner node, and the loop over the elements behind it: the
element, and the children and elements that are left. A child without an entry is erased. -/
def removeChildren (pos : ℕ) (elements : List α) :
    List (Bucket α) → ℕ → Except SumTreeFailure (α × List (Bucket α) × List α)
  | [], sum => (removeElements size pos elements sum).map fun (e, elements) => (e, [], elements)
  | child :: children, sum =>
    let next := (sum + child.size) % 2 ^ 64
    if next ≤ pos then
      (removeChildren pos elements children next).map fun (e, children, elements) =>
        (e, child :: children, elements)
    else
      (Bucket.remove pos child ((next + 2 ^ 64 - child.size) % 2 ^ 64)).map fun (e, child) =>
        (e, if child.size = 0 then children else child :: children, elements)

end

/-- `SumTree`: the root node and the depth of the tree. -/
structure SumTree (α : Type*) where
  /-- `m_root`. -/
  root : Bucket α := {}
  /-- `m_depth`: nodes at this level are leaf nodes. -/
  depth : ℕ := 0

/-- `add(element)`. -/
def SumTree.add (bucketSize : ℕ) (tree : SumTree α) (element : α) : SumTree α :=
  -- pilots with size == 0 cannot be picked anyways
  if size element = 0 then tree
  else
    let (added, root) := tree.root.add size bucketSize element tree.depth
    if added then { tree with root }
    else
      -- tree is full, move everything one level down and retry
      let depth := (tree.depth + 1) % 2 ^ 32
      let root : Bucket α := { children := [root], size := root.size }
      { root := (root.add size bucketSize element depth).2, depth }

/-- `get(pos)`. -/
def SumTree.get (tree : SumTree α) (pos : ℕ) : Except SumTreeFailure α := tree.root.get size pos 0

/-- `remove(pos)`. -/
def SumTree.remove (tree : SumTree α) (pos : ℕ) : Except SumTreeFailure (α × SumTree α) :=
  (tree.root.remove size pos 0).map fun (e, root) => (e, { tree with root })

/-- `get_size()`. -/
def SumTree.getSize (tree : SumTree α) : ℕ := tree.root.size

end Operations

/-! ## The representation invariant -/

variable {α : Type*} {size : α → ℕ} {bucketSize d sum pos : ℕ} {node child : Bucket α} {e : α}

/-- A well-formed leaf node. -/
structure Bucket.IsLeaf (size : α → ℕ) (bucketSize : ℕ) (node : Bucket α) : Prop where
  children : node.children = []
  capacity : node.elements.length ≤ bucketSize
  sum : node.size = totalSize size node.elements
  positive : ∀ e ∈ node.elements, 0 < size e

/-- A well-formed inner node, given what the children are like. No child is empty. -/
structure Bucket.IsInner (bucketSize : ℕ) (childWF : Bucket α → Prop) (node : Bucket α) : Prop where
  elements : node.elements = []
  capacity : node.children.length ≤ bucketSize
  sum : node.size = totalSize Bucket.size node.children
  child : ∀ child ∈ node.children, 0 < child.size ∧ childWF child

/-- **A well-formed node** with leaves `d` levels below it. -/
def Bucket.WF (size : α → ℕ) (bucketSize : ℕ) : ℕ → Bucket α → Prop
  | 0 => Bucket.IsLeaf size bucketSize
  | d + 1 => Bucket.IsInner bucketSize (Bucket.WF size bucketSize d)

/-- **The entries of a node** with leaves `d` levels below it. -/
def Bucket.entries : ℕ → Bucket α → List α
  | 0, node => node.elements
  | d + 1, node => node.children.flatMap (Bucket.entries d)

theorem Bucket.wf_empty (size : α → ℕ) (bucketSize d : ℕ) : Bucket.WF size bucketSize d ({} : Bucket α) := by
  cases d with
  | zero => exact ⟨rfl, Nat.zero_le _, rfl, by simp⟩
  | succ d => exact ⟨rfl, Nat.zero_le _, rfl, by simp⟩

theorem Bucket.entries_empty (d : ℕ) : Bucket.entries d ({} : Bucket α) = [] := by
  cases d <;> rfl

/-- **A node knows the sum** of the sizes of its entries. -/
theorem Bucket.WF.size_eq (h : node.WF size bucketSize d) : node.size = totalSize size (node.entries d) := by
  induction d generalizing node with
  | zero => exact h.sum
  | succ d ih =>
    unfold Bucket.entries
    rw [h.sum, totalSize_flatMap]
    exact totalSize_congr fun child hchild => ih (h.child child hchild).2

theorem Bucket.WF.positive (h : node.WF size bucketSize d) : ∀ e ∈ node.entries d, 0 < size e := by
  induction d generalizing node with
  | zero => exact h.positive
  | succ d ih =>
    intro e he
    obtain ⟨child, hchild, he⟩ := List.mem_flatMap.mp he
    exact ih (h.child child hchild).2 e he

theorem Bucket.WF.entries_eq_nil (h : node.WF size bucketSize d) (hzero : node.size = 0) :
    node.entries d = [] :=
  eq_nil_of_totalSize_eq_zero h.positive (h.size_eq ▸ hzero)

/-! ## Finding an entry -/

theorem getElements_spec {elements : List α} (hle : sum ≤ pos) (hlt : pos < sum + totalSize size elements)
    (hbound : sum + totalSize size elements < 2 ^ 64) :
    ∃ i e, Picks size elements sum pos i e ∧ getElements size pos elements sum = .ok e ∧
      removeElements size pos elements sum = .ok (e, elements.eraseIdx i) := by
  induction elements generalizing sum with
  | nil =>
    rw [totalSize_nil] at hlt
    omega
  | cons x xs ih =>
    rw [totalSize_cons] at hlt hbound
    unfold getElements removeElements
    rw [Nat.mod_eq_of_lt (show sum + size x < 2 ^ 64 by omega)]
    by_cases hx : sum + size x ≤ pos
    · obtain ⟨i, e, hpicks, hget, hremove⟩ := ih hx (by omega) (by omega)
      refine ⟨i + 1, e, hpicks.cons, ?_, ?_⟩
      · simp only [if_pos hx, hget]
      · simp only [if_pos hx, hremove]
        rfl
    · refine ⟨0, x, picks_head hle (Nat.not_le.mp hx), ?_, ?_⟩
      · simp only [if_neg hx]
      · simp only [if_neg hx]
        rfl

/-- A number is found in a node, and its entry can be removed. -/
def Bucket.Finds (size : α → ℕ) (bucketSize d : ℕ) (node : Bucket α) (sum pos : ℕ) : Prop :=
  ∃ i e node', Picks size (node.entries d) sum pos i e ∧ node.get size pos sum = .ok e ∧
    node.remove size pos sum = .ok (e, node') ∧ node'.WF size bucketSize d ∧
    node'.entries d = (node.entries d).eraseIdx i

/-- **The loop over the children**, given that the number is found in every child it lies in. -/
theorem getChildren_spec {children : List (Bucket α)} (elements : List α)
    (hchild : ∀ child ∈ children, 0 < child.size ∧ child.WF size bucketSize d)
    (hfinds : ∀ child ∈ children, ∀ sum, sum ≤ pos → pos < sum + child.size → sum + child.size < 2 ^ 64 →
      child.Finds size bucketSize d sum pos)
    (hle : sum ≤ pos) (hlt : pos < sum + totalSize Bucket.size children)
    (hbound : sum + totalSize Bucket.size children < 2 ^ 64) :
    ∃ i e children', Picks size (children.flatMap (Bucket.entries d)) sum pos i e ∧
      getChildren size pos elements children sum = .ok e ∧
      removeChildren size pos elements children sum = .ok (e, children', elements) ∧
      children'.length ≤ children.length ∧
      (∀ child ∈ children', 0 < child.size ∧ child.WF size bucketSize d) ∧
      children'.flatMap (Bucket.entries d) = (children.flatMap (Bucket.entries d)).eraseIdx i := by
  induction children generalizing sum with
  | nil =>
    rw [totalSize_nil] at hlt
    omega
  | cons child children ih =>
    obtain ⟨hwf, hrest⟩ := List.forall_mem_cons.mp hchild
    obtain ⟨hfind, hfindRest⟩ := List.forall_mem_cons.mp hfinds
    rw [totalSize_cons] at hlt hbound
    unfold getChildren removeChildren
    rw [Nat.mod_eq_of_lt (show sum + child.size < 2 ^ 64 by omega), List.flatMap_cons]
    by_cases hskip : sum + child.size ≤ pos
    · obtain ⟨i, e, children', hpicks, hget, hremove, hlen, hwf', hentries⟩ :=
        ih hrest hfindRest hskip (by omega) (by omega)
      rw [hwf.2.size_eq] at hpicks
      refine ⟨_, e, child :: children', hpicks.append_right, ?_, ?_, ?_, ?_, ?_⟩
      · simp only [if_pos hskip, hget]
      · simp only [if_pos hskip, hremove]
        rfl
      · exact Nat.succ_le_succ hlen
      · exact List.forall_mem_cons.mpr ⟨hwf, hwf'⟩
      · rw [List.flatMap_cons, hentries, List.eraseIdx_append_of_length_le (Nat.le_add_right _ _),
          Nat.add_sub_cancel_left]
    · -- found containing bucket, recurse
      have hback : (sum + child.size + 2 ^ 64 - child.size) % 2 ^ 64 = sum := by omega
      obtain ⟨i, e, child', hpicks, hget, hremove, hwf', hentries⟩ :=
        hfind sum hle (Nat.not_le.mp hskip) (by omega)
      refine ⟨i, e, if child'.size = 0 then children else child' :: children,
        hpicks.append_left _, ?_, ?_, ?_, ?_, ?_⟩
      · simp only [if_neg hskip, hback, hget]
      · simp only [if_neg hskip, hback, hremove]
        rfl
      · split
        · exact Nat.le_succ _
        · exact le_rfl
      · split
        · exact hrest
        · rename_i hne
          exact List.forall_mem_cons.mpr ⟨⟨Nat.pos_of_ne_zero hne, hwf'⟩, hrest⟩
      · rw [List.eraseIdx_append_of_lt_length hpicks.lt_length, ← hentries]
        split
        · rename_i hzero
          rw [hwf'.entries_eq_nil hzero]
          rfl
        · rw [List.flatMap_cons]

theorem size_of_eraseIdx {entries : List α} {i : ℕ} (h : entries[i]? = some e)
    (hbound : totalSize size entries < 2 ^ 64) :
    (totalSize size entries + 2 ^ 64 - size e) % 2 ^ 64 = totalSize size (entries.eraseIdx i) := by
  have hsum : totalSize size (entries.eraseIdx i) + size e = totalSize size entries := totalSize_eraseIdx h
  omega

/-- **The number is found** in a well-formed node it lies in. -/
theorem Bucket.WF.finds (h : node.WF size bucketSize d) (hle : sum ≤ pos) (hlt : pos < sum + node.size)
    (hbound : sum + node.size < 2 ^ 64) : node.Finds size bucketSize d sum pos := by
  induction d generalizing node sum with
  | zero =>
    obtain ⟨total, children, elements⟩ := node
    obtain ⟨hchildren, hcapacity, hsum, hpositive⟩ := h
    simp only at hchildren hcapacity hsum hpositive hlt hbound
    subst hchildren hsum
    obtain ⟨i, e, hpicks, hget, hremove⟩ := getElements_spec hle hlt hbound
    refine ⟨i, e, ⟨(totalSize size elements + 2 ^ 64 - size e) % 2 ^ 64, [], elements.eraseIdx i⟩, hpicks,
      ?_, ?_, ?_, rfl⟩
    · unfold Bucket.get
      rw [Nat.mod_eq_of_lt hbound, if_pos ⟨hle, hlt⟩, getChildren]
      exact hget
    · unfold Bucket.remove
      rw [Nat.mod_eq_of_lt hbound, if_pos ⟨hle, hlt⟩, removeChildren, hremove]
      rfl
    · refine ⟨rfl, (List.length_eraseIdx_le elements i).trans hcapacity, ?_, fun e' he' => ?_⟩
      · exact size_of_eraseIdx hpicks.getElem (by omega)
      · exact hpositive e' (List.mem_of_mem_eraseIdx he')
  | succ d ih =>
    have hsize := h.size_eq
    obtain ⟨total, children, elements⟩ := node
    obtain ⟨helements, hcapacity, hsum, hchild⟩ := h
    simp only at helements hcapacity hsum hchild hlt hbound hsize
    subst helements
    have hlt' : pos < sum + totalSize Bucket.size children := hsum ▸ hlt
    have hbound' : sum + totalSize Bucket.size children < 2 ^ 64 := hsum ▸ hbound
    obtain ⟨i, e, children', hpicks, hget, hremove, hlen, hchild', hentries⟩ :=
      getChildren_spec [] hchild (fun child hmem sum => ih (hchild child hmem).2) hle hlt' hbound'
    refine ⟨i, e, ⟨(total + 2 ^ 64 - size e) % 2 ^ 64, children', []⟩, hpicks, ?_, ?_, ?_, hentries⟩
    · unfold Bucket.get
      rw [Nat.mod_eq_of_lt hbound, if_pos ⟨hle, hlt⟩]
      exact hget
    · unfold Bucket.remove
      rw [Nat.mod_eq_of_lt hbound, if_pos ⟨hle, hlt⟩, hremove]
      rfl
    · refine ⟨rfl, hlen.trans hcapacity, ?_, hchild'⟩
      have hsum' : totalSize Bucket.size children' = totalSize size (children'.flatMap (Bucket.entries d)) := by
        rw [totalSize_flatMap]
        exact totalSize_congr fun child hmem => (hchild' child hmem).2.size_eq
      show (total + 2 ^ 64 - size e) % 2 ^ 64 = totalSize Bucket.size children'
      rw [hsum', hentries, hsize]
      refine size_of_eraseIdx hpicks.getElem ?_
      show totalSize size (Bucket.entries (d + 1) ⟨total, children, []⟩) < 2 ^ 64
      omega

/-! ## Adding an entry -/

/-- The element is added to the node. -/
def Bucket.Adds (size : α → ℕ) (bucketSize d : ℕ) (node : Bucket α) (e : α) : Prop :=
  ∃ node', node.add size bucketSize e d = (true, node') ∧ node'.WF size bucketSize d ∧
    node'.entries d = node.entries d ++ [e]

theorem Bucket.WF.concat (h : node.WF size bucketSize (d + 1)) (hbound : node.size + size e < 2 ^ 64)
    {children : List (Bucket α)} (hchild : ∀ child ∈ children, 0 < child.size ∧ child.WF size bucketSize d)
    (hcapacity : children.length ≤ bucketSize)
    (hentries : children.flatMap (Bucket.entries d) = node.entries (d + 1) ++ [e]) :
    Bucket.WF size bucketSize (d + 1)
      { node with children, size := (node.size + size e) % 2 ^ 64 } := by
  refine ⟨h.elements, hcapacity, ?_, hchild⟩
  have hsum : totalSize Bucket.size children = totalSize size (children.flatMap (Bucket.entries d)) := by
    rw [totalSize_flatMap]
    exact totalSize_congr fun child hmem => (hchild child hmem).2.size_eq
  show (node.size + size e) % 2 ^ 64 = totalSize Bucket.size children
  rw [hsum, hentries, totalSize_append, ← h.size_eq, Nat.mod_eq_of_lt hbound]
  simp

theorem Bucket.WF.pos_of_concat {front : List α} (h : node.WF size bucketSize d) (he : 0 < size e)
    (hentries : node.entries d = front ++ [e]) : 0 < node.size := by
  rw [h.size_eq, hentries, totalSize_append, totalSize_cons]
  omega

theorem Bucket.add_succ_of_nil (hnil : node.children = []) {child : Bucket α}
    (hadd : Bucket.add size bucketSize e d {} = (true, child)) :
    node.add size bucketSize e (d + 1) =
      (true, { node with children := [child], size := (node.size + size e) % 2 ^ 64 }) := by
  unfold Bucket.add
  simp [hnil, hadd]

theorem Bucket.add_succ_of_concat {children : List (Bucket α)} {newest child : Bucket α} {added : Bool}
    (hchildren : node.children = children ++ [newest])
    (hadd : newest.add size bucketSize e d = (added, child)) :
    node.add size bucketSize e (d + 1) =
      if added then
        (true, { node with children := children ++ [child], size := (node.size + size e) % 2 ^ 64 })
      else if children.length + 1 < bucketSize then
        (true, { node with
          children := children ++ [child] ++ [(Bucket.add size bucketSize e d {}).2]
          size := (node.size + size e) % 2 ^ 64 })
      else (false, { node with children := children ++ [child] }) := by
  rw [Bucket.add]
  simp [hchildren, hadd]

/-- **The recursive `add`** adds the element, or leaves a node as it is that is full. -/
theorem Bucket.WF.adds (hcap : 1 ≤ bucketSize) (h : node.WF size bucketSize d) (he : 0 < size e)
    (hbound : node.size + size e < 2 ^ 64) :
    node.Adds size bucketSize d e ∨ (node.add size bucketSize e d = (false, node) ∧ 0 < node.size) := by
  induction d generalizing node with
  | zero =>
    obtain ⟨hchildren, hcapacity, hsum, hpositive⟩ := h
    unfold Bucket.Adds Bucket.add
    by_cases hroom : node.elements.length < bucketSize
    · rw [if_pos hroom]
      refine .inl ⟨_, rfl, ⟨hchildren, ?_, ?_, ?_⟩, rfl⟩
      · simpa using hroom
      · rw [Nat.mod_eq_of_lt hbound, totalSize_append, hsum]
        simp
      · intro e' he'
        rcases List.mem_append.mp he' with he' | he'
        · exact hpositive e' he'
        · rwa [List.mem_singleton.mp he']
    · rw [if_neg hroom]
      refine .inr ⟨rfl, ?_⟩
      obtain ⟨x, hx⟩ := List.exists_mem_of_length_pos (show 0 < node.elements.length by omega)
      rw [hsum]
      exact (hpositive x hx).trans_le (le_totalSize hx)
  | succ d ih =>
    -- a new bucket takes the element
    have hfresh : ∃ fresh, Bucket.add size bucketSize e d {} = (true, fresh) ∧ 0 < fresh.size ∧
        fresh.WF size bucketSize d ∧ fresh.entries d = [e] := by
      have hzero : (0 : ℕ) + size e < 2 ^ 64 := by omega
      rcases ih (Bucket.wf_empty size bucketSize d) hzero with ⟨fresh, hadd, hwf, hentries⟩ | ⟨-, hpos⟩
      · rw [Bucket.entries_empty] at hentries
        exact ⟨fresh, hadd, hwf.pos_of_concat he hentries, hwf, hentries⟩
      · exact absurd hpos (lt_irrefl 0)
    obtain ⟨fresh, haddFresh, hposFresh, hwfFresh, hentriesFresh⟩ := hfresh
    rcases List.eq_nil_or_concat' node.children with hnil | ⟨children, newest, hchildren⟩
    · refine .inl ⟨_, Bucket.add_succ_of_nil hnil haddFresh, h.concat hbound ?_ hcap ?_, ?_⟩
      · exact List.forall_mem_singleton.mpr ⟨hposFresh, hwfFresh⟩
      all_goals simp [Bucket.entries, hnil, hentriesFresh]
    · have hold := h.child
      rw [hchildren] at hold
      obtain ⟨hfront, hnewest⟩ := List.forall_mem_append.mp hold
      obtain ⟨hposNewest, hwfNewest⟩ := List.forall_mem_singleton.mp hnewest
      have hentries : node.entries (d + 1) = children.flatMap (Bucket.entries d) ++ newest.entries d := by
        simp [Bucket.entries, hchildren]
      have hcapacity := h.capacity
      rw [hchildren, List.length_append, List.length_singleton] at hcapacity
      have hle : newest.size ≤ node.size := by
        rw [h.sum]
        exact le_totalSize (by simp [hchildren])
      rcases ih hwfNewest (by omega) with ⟨child, hadd, hwfChild, hentriesChild⟩ | ⟨hadd, -⟩
      · have hentries' : (children ++ [child]).flatMap (Bucket.entries d) = node.entries (d + 1) ++ [e] := by
          rw [hentries, List.flatMap_append, List.flatMap_singleton, hentriesChild, List.append_assoc]
        refine .inl ⟨_, Bucket.add_succ_of_concat hchildren hadd, h.concat hbound ?_ ?_ hentries', hentries'⟩
        · exact List.forall_mem_append.mpr
            ⟨hfront, List.forall_mem_singleton.mpr ⟨hwfChild.pos_of_concat he hentriesChild, hwfChild⟩⟩
        · rwa [List.length_append, List.length_singleton]
      · -- the newest child is full
        have hadd' := Bucket.add_succ_of_concat hchildren hadd
        rw [if_neg Bool.false_ne_true, haddFresh, ← hchildren] at hadd'
        by_cases hroom : children.length + 1 < bucketSize
        · rw [if_pos hroom] at hadd'
          have hentries' : (node.children ++ [fresh]).flatMap (Bucket.entries d) =
              node.entries (d + 1) ++ [e] := by
            rw [List.flatMap_append, List.flatMap_singleton, hentriesFresh]
            rfl
          refine .inl ⟨_, hadd', h.concat hbound ?_ ?_ hentries', hentries'⟩
          · exact List.forall_mem_append.mpr
              ⟨h.child, List.forall_mem_singleton.mpr ⟨hposFresh, hwfFresh⟩⟩
          · rw [hchildren, List.length_append, List.length_append, List.length_singleton,
              List.length_singleton]
            exact hroom
        · rw [if_neg hroom] at hadd'
          exact .inr ⟨hadd'.trans (by cases node; rfl), hposNewest.trans_le hle⟩

/-! ## The tree -/

/-- **The tree represents a list** of entries. -/
def SumTree.Represents (size : α → ℕ) (bucketSize : ℕ) (tree : SumTree α) (entries : List α) : Prop :=
  tree.root.WF size bucketSize tree.depth ∧ tree.root.entries tree.depth = entries

variable {tree : SumTree α} {entries : List α}

theorem SumTree.represents_nil (size : α → ℕ) (bucketSize : ℕ) :
    SumTree.Represents size bucketSize ({} : SumTree α) [] :=
  ⟨Bucket.wf_empty size bucketSize 0, rfl⟩

theorem SumTree.Represents.getSize_eq (h : tree.Represents size bucketSize entries) :
    tree.getSize = totalSize size entries := by
  rw [← h.2]
  exact h.1.size_eq

/-- **`get` and `remove`** find the picked entry. -/
theorem SumTree.Represents.finds (h : tree.Represents size bucketSize entries) (hpos : pos < tree.getSize)
    (hbound : totalSize size entries < 2 ^ 64) :
    ∃ i e tree', Picks size entries 0 pos i e ∧ tree.get size pos = .ok e ∧
      tree.remove size pos = .ok (e, tree') ∧ tree'.Represents size bucketSize (entries.eraseIdx i) := by
  have hsize : tree.root.size = totalSize size entries := h.getSize_eq
  obtain ⟨hwf, rfl⟩ := h
  obtain ⟨i, e, root', hpicks, hget, hremove, hwf', hentries⟩ :=
    hwf.finds (Nat.zero_le pos) (by rw [Nat.zero_add]; exact hpos) (by rw [Nat.zero_add, hsize]; exact hbound)
  refine ⟨i, e, { tree with root := root' }, hpicks, hget, ?_, hwf', hentries⟩
  unfold SumTree.remove
  rw [hremove]
  rfl

/-- There is room for an element: it is empty, the tree is empty, or buckets take two entries. The number of
levels is a 32-bit number. -/
def SumTree.Roomy (size : α → ℕ) (bucketSize : ℕ) (tree : SumTree α) (element : α) : Prop :=
  size element = 0 ∨ tree.getSize = 0 ∨ (2 ≤ bucketSize ∧ tree.depth + 1 < 2 ^ 32)

instance (bucketSize : ℕ) (tree : SumTree α) (element : α) : Decidable (tree.Roomy size bucketSize element) :=
  inferInstanceAs (Decidable (_ ∨ _))

/-- A full tree, one level down. -/
theorem Bucket.WF.pushDown (hcap : 1 ≤ bucketSize) (h : node.WF size bucketSize d) (hpos : 0 < node.size) :
    Bucket.WF size bucketSize (d + 1) { children := [node], size := node.size } :=
  ⟨rfl, hcap, (Nat.add_zero _).symm, List.forall_mem_singleton.mpr ⟨hpos, h⟩⟩

/-- **`add`** appends the element unless it is empty. -/
theorem SumTree.Represents.add (hcap : 1 ≤ bucketSize) (h : tree.Represents size bucketSize entries)
    (hbound : totalSize size entries + size e < 2 ^ 64) (hroom : tree.Roomy size bucketSize e) :
    (tree.add size bucketSize e).Represents size bucketSize
      (if size e = 0 then entries else entries ++ [e]) := by
  have hsize : tree.root.size = totalSize size entries := h.getSize_eq
  unfold SumTree.add
  by_cases hzero : size e = 0
  · rwa [if_pos hzero, if_pos hzero]
  · rw [if_neg hzero, if_neg hzero]
    obtain ⟨hwf, rfl⟩ := h
    have he := Nat.pos_of_ne_zero hzero
    rcases hwf.adds hcap he (hsize ▸ hbound) with ⟨root', hadd, hwf', hentries'⟩ | ⟨hfull, hpos⟩
    · rw [hadd]
      exact ⟨hwf', hentries'⟩
    · -- the tree is full
      obtain ⟨hcap2, hdepth⟩ : 2 ≤ bucketSize ∧ tree.depth + 1 < 2 ^ 32 := by
        rcases hroom with hzero' | hempty | hroom
        · exact absurd hzero' hzero
        · exact absurd hempty hpos.ne'
        · exact hroom
      have hretry : (Bucket.add size bucketSize e (tree.depth + 1)
          { children := [tree.root], size := tree.root.size }).1 = true := by
        rw [Bucket.add]
        simp [hfull, show 1 < bucketSize from hcap2]
      rcases (hwf.pushDown hcap hpos).adds hcap he (hsize ▸ hbound) with
        ⟨root', hadd, hwf', hentries'⟩ | ⟨hfull', -⟩
      · simp only [hfull, Bool.false_eq_true, if_false, Nat.mod_eq_of_lt hdepth, hadd]
        refine ⟨hwf', hentries'.trans ?_⟩
        simp [Bucket.entries]
      · rw [hfull'] at hretry
        exact absurd hretry Bool.false_ne_true

/-! ## Buckets for one entry -/

/-- A bucket for one entry is full as soon as it is not empty. -/
theorem Bucket.WF.add_of_one (h : node.WF size 1 d) (hpos : 0 < node.size) :
    node.add size 1 e d = (false, node) := by
  induction d generalizing node with
  | zero =>
    unfold Bucket.add
    rw [if_neg]
    intro hroom
    have hnil : node.elements = [] := List.eq_nil_of_length_eq_zero (by omega)
    rw [h.sum, hnil, totalSize_nil] at hpos
    exact lt_irrefl 0 hpos
  | succ d ih =>
    rcases List.eq_nil_or_concat' node.children with hnil | ⟨children, newest, hchildren⟩
    · rw [h.sum, hnil, totalSize_nil] at hpos
      exact absurd hpos (lt_irrefl 0)
    · obtain ⟨hposNewest, hwfNewest⟩ := h.child newest (by simp [hchildren])
      rw [Bucket.add_succ_of_concat hchildren (ih hwfNewest hposNewest), if_neg Bool.false_ne_true,
        if_neg (by omega), ← hchildren]
      cases node
      rfl

/-- **With buckets for one entry a second element is lost.** -/
theorem SumTree.Represents.getSize_add_of_one (h : tree.Represents size 1 entries) (hpos : tree.getSize ≠ 0)
    (hdepth : tree.depth + 1 < 2 ^ 32) : (tree.add size 1 e).getSize = tree.getSize := by
  have hroot := Nat.pos_of_ne_zero hpos
  unfold SumTree.add
  split
  · rfl
  · have hdown : Bucket.WF size 1 (tree.depth + 1) { children := [tree.root], size := tree.root.size } :=
      h.1.pushDown le_rfl hroot
    simp only [h.1.add_of_one hroot, Bool.false_eq_true, if_false, Nat.mod_eq_of_lt hdepth]
    rw [hdown.add_of_one hroot]
    rfl

/-! ## Sequences of operations -/

/-- The operations. -/
inductive SumTreeOp (α : Type*)
  | add (element : α)
  | get (pos : ℕ)
  | remove (pos : ℕ)

/-- An operation on the tree, with the element it returns. -/
def SumTree.step (size : α → ℕ) (bucketSize : ℕ) (tree : SumTree α) :
    SumTreeOp α → Except SumTreeFailure (SumTree α × Option α)
  | .add element => .ok (tree.add size bucketSize element, none)
  | .get pos => (tree.get size pos).map fun e => (tree, some e)
  | .remove pos => (tree.remove size pos).map fun (e, tree) => (tree, some e)

/-- **Naive roulette-wheel selection**: the same operation on a list of entries. -/
def wheelStep (size : α → ℕ) (entries : List α) : SumTreeOp α → Option (List α × Option α)
  | .add element => some (if size element = 0 then entries else entries ++ [element], none)
  | .get pos => (pick size entries 0 pos).map fun (_, e) => (entries, some e)
  | .remove pos => (pick size entries 0 pos).map fun (i, e) => (entries.eraseIdx i, some e)

/-- The tree and the list side by side. -/
def lockstep (size : α → ℕ) (bucketSize : ℕ) (s : SumTree α × List α) (op : SumTreeOp α) :
    Option (SumTree α × List α) :=
  match s.1.step size bucketSize op, wheelStep size s.2 op with
  | .ok (tree, _), some (entries, _) => some (tree, entries)
  | _, _ => none

/-- The operation is allowed: the total size stays below `2 ^ 64` and there is room for an element; positions
are below `get_size()`. -/
def SumTreeOp.Allowed (size : α → ℕ) (bucketSize : ℕ) (s : SumTree α × List α) : SumTreeOp α → Prop
  | .add element => totalSize size s.2 + size element < 2 ^ 64 ∧ s.1.Roomy size bucketSize element
  | .get pos => pos < s.1.getSize
  | .remove pos => pos < s.1.getSize

instance (s : SumTree α × List α) (op : SumTreeOp α) : Decidable (op.Allowed size bucketSize s) := by
  cases op <;> unfold SumTreeOp.Allowed <;> infer_instance

/-- The tree represents the list, whose total size is a 64-bit number. -/
def InStep (size : α → ℕ) (bucketSize : ℕ) (s : SumTree α × List α) : Prop :=
  s.1.Represents size bucketSize s.2 ∧ totalSize size s.2 < 2 ^ 64

variable {s : SumTree α × List α}

/-- **One operation** returns the same element on both sides. -/
theorem InStep.step (hcap : 1 ≤ bucketSize) (h : InStep size bucketSize s) (op : SumTreeOp α)
    (hop : op.Allowed size bucketSize s) :
    ∃ s' out, s.1.step size bucketSize op = .ok (s'.1, out) ∧ wheelStep size s.2 op = some (s'.2, out) ∧
      InStep size bucketSize s' := by
  obtain ⟨hrep, hbound⟩ := h
  cases op with
  | add element =>
    refine ⟨(s.1.add size bucketSize element, if size element = 0 then s.2 else s.2 ++ [element]), none, rfl,
      rfl, hrep.add hcap hop.1 hop.2, ?_⟩
    show totalSize size (if size element = 0 then s.2 else s.2 ++ [element]) < 2 ^ 64
    split
    · exact hbound
    · rw [totalSize_append]
      simpa using hop.1
  | get pos =>
    obtain ⟨i, e, tree', hpicks, hget, -, -⟩ := hrep.finds hop hbound
    have hpick : pick size s.2 0 pos = some (i, e) :=
      (pick_eq_some_iff (Nat.zero_le pos) (by rw [Nat.zero_add, ← hrep.getSize_eq]; exact hop)).mpr hpicks
    refine ⟨s, some e, ?_, ?_, hrep, hbound⟩
    · rw [SumTree.step, hget]
      rfl
    · rw [wheelStep, hpick]
      rfl
  | remove pos =>
    obtain ⟨i, e, tree', hpicks, -, hremove, hrep'⟩ := hrep.finds hop hbound
    have hpick : pick size s.2 0 pos = some (i, e) :=
      (pick_eq_some_iff (Nat.zero_le pos) (by rw [Nat.zero_add, ← hrep.getSize_eq]; exact hop)).mpr hpicks
    refine ⟨(tree', s.2.eraseIdx i), some e, ?_, ?_, hrep', ?_⟩
    · rw [SumTree.step, hremove]
      rfl
    · rw [wheelStep, hpick]
      rfl
    · have hsum : totalSize size (s.2.eraseIdx i) + size e = totalSize size s.2 :=
        totalSize_eraseIdx hpicks.getElem
      show totalSize size (s.2.eraseIdx i) < 2 ^ 64
      omega

/-- **A sequence of operations** keeps the tree and the list in step. -/
theorem inStep_of_reachable (hcap : 1 ≤ bucketSize)
    (h : ReachableBy (lockstep size bucketSize) (fun s op => op.Allowed size bucketSize s) ({}, []) s) :
    InStep size bucketSize s := by
  refine h.invariant ⟨SumTree.represents_nil size bucketSize, ?_⟩ fun s op s' hs hop hstep => ?_
  · exact Nat.two_pow_pos 64
  · obtain ⟨s'', out, htree, hwheel, hs''⟩ := hs.step hcap op hop
    rw [lockstep, htree, hwheel] at hstep
    obtain rfl : s'' = s' := Option.some.inj hstep
    exact hs''

/-- **The sum tree refines naive roulette-wheel selection.** After every sequence of operations in which every
element finds room: `get_size()` is the sum of the sizes of the list; the next operation fails no assertion
and returns what the naive selection returns; and a position below `get_size()` picks exactly one entry.
Without room, in buckets for one entry, an element is lost. -/
theorem sumTree_refines_wheel (size : α → ℕ) (bucketSize : ℕ) (hcap : 1 ≤ bucketSize) (s : SumTree α × List α)
    (h : ReachableBy (lockstep size bucketSize) (fun s op => op.Allowed size bucketSize s) ({}, []) s) :
    s.1.getSize = totalSize size s.2 ∧
    (∀ op : SumTreeOp α, op.Allowed size bucketSize s → ∃ tree entries out,
      s.1.step size bucketSize op = .ok (tree, out) ∧ wheelStep size s.2 op = some (entries, out)) ∧
    (∀ pos < s.1.getSize, ∃ i e, pick size s.2 0 pos = some (i, e) ∧ Picks size s.2 0 pos i e ∧
      ∀ j e', Picks size s.2 0 pos j e' → j = i ∧ e' = e) ∧
    (bucketSize = 1 → s.1.getSize ≠ 0 → s.1.depth + 1 < 2 ^ 32 → ∀ element,
      (s.1.add size bucketSize element).getSize = s.1.getSize) := by
  have hs := inStep_of_reachable hcap h
  have hsize := hs.1.getSize_eq
  refine ⟨hsize, fun op hop => ?_, fun pos hpos => ?_, ?_⟩
  · obtain ⟨s', out, htree, hwheel, -⟩ := hs.step hcap op hop
    exact ⟨s'.1, s'.2, out, htree, hwheel⟩
  · rw [hsize] at hpos
    obtain ⟨i, e, hpick, hpicks⟩ := exists_pick (Nat.zero_le pos) (by rwa [Nat.zero_add])
    exact ⟨i, e, hpick, hpicks, fun j e' h' => hpicks.unique h'⟩
  · rintro rfl hne hdepth element
    exact hs.1.getSize_add_of_one hne hdepth

/-- Additions and removals, mixed, in buckets for two entries. -/
theorem sumTree_refines_wheel_mixed :
    ∃ s : SumTree ℕ × List ℕ, ReachableBy (lockstep id 2) (fun s op => op.Allowed id 2 s) ({}, []) s ∧
      s.2 = [3, 2, 7, 1] ∧ s.1.getSize = totalSize id s.2 := by
  have hrun : (runBy (lockstep id 2) (fun s op => decide (op.Allowed id 2 s)) ({}, [])
      ([.add 3, .add 0, .add 5, .add 2, .remove 4, .add 7, .get 5, .add 1] : List (SumTreeOp ℕ))).map Prod.snd =
      some [3, 2, 7, 1] := by decide +kernel
  obtain ⟨s, hs, hentries⟩ := Option.map_eq_some_iff.mp hrun
  have hreach := reachableBy_of_runBy _ hs
  exact ⟨s, hreach, hentries, (sumTree_refines_wheel id 2 (by decide) s hreach).1⟩

/-- **In buckets for one entry the second element is lost**: `get_size()` is not the sum of the sizes. -/
theorem second_element_is_lost :
    ∃ s : SumTree ℕ × List ℕ, run (lockstep id 1) ({}, []) ([.add 3, .add 5] : List (SumTreeOp ℕ)) = some s ∧
      s.2 = [3, 5] ∧ s.1.getSize = 3 ∧ s.1.getSize ≠ totalSize id s.2 := by
  have hrun : (run (lockstep id 1) ({}, []) ([.add 3, .add 5] : List (SumTreeOp ℕ))).map
      (fun s => (s.1.getSize, s.2)) = some (3, [3, 5]) := by decide +kernel
  obtain ⟨s, hs, heq⟩ := Option.map_eq_some_iff.mp hrun
  obtain ⟨hsize, hentries⟩ := Prod.mk.inj heq
  refine ⟨s, hs, hentries, hsize, ?_⟩
  rw [hsize, hentries]
  decide

end FailStar
