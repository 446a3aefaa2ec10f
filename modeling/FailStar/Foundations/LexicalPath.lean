import Mathlib.Tactic

/-! # Lexical resolution of paths

What a path denotes, without a look at the file system: the components between the separators, in which empty and
`.` components are dropped, and `..` cancels the normal component before it.

* **`pathComponents`** — the components of a path; **`resolve`** — the file it denotes.
* **`CleanPath`** — a path without empty and `.` components.
* **`resolve_of_no_parents`**, **`resolve_of_no_separator`** — paths without `..`, and paths of a single
  component. -/

namespace FailStar

/-- The components between the separators. -/
def pathComponents (p : List Char) : List (List Char) := p.splitOn '/'

/-- A component that is dropped. -/
def IsVoid (comp : List Char) : Prop := comp = [] ∨ comp = ['.']

instance (comp : List Char) : Decidable (IsVoid comp) := inferInstanceAs (Decidable (_ ∨ _))

/-- One component more, with the last component first. -/
def resolveStep (stack : List (List Char)) (comp : List Char) : List (List Char) :=
  if IsVoid comp then stack
  else if comp = ['.', '.'] then
    match stack with
    | [] => [comp]
    | top :: rest => if top = ['.', '.'] then comp :: top :: rest else rest
  else comp :: stack

/-- A path from the root. -/
def isAbsolutePath (p : List Char) : Bool := decide (p.head? = some '/')

/-- **The file that a path denotes**: whether it is absolute, and the components that are left. -/
def resolve (p : List Char) : Bool × List (List Char) :=
  (isAbsolutePath p, ((pathComponents p).foldl resolveStep []).reverse)

/-- The path behind the root. -/
def behindRoot (p : List Char) : List Char := if isAbsolutePath p then p.tail else p

/-- **No component is empty or `.`**; the root and the empty path have no components. -/
def CleanPath (p : List Char) : Prop := behindRoot p = [] ∨ ∀ comp ∈ pathComponents (behindRoot p), ¬IsVoid comp

instance (p : List Char) : Decidable (CleanPath p) := inferInstanceAs (Decidable (_ ∨ _))

variable {p cs : List Char} {c : Char}

/-! ## Components -/

theorem pathComponents_ne_nil (p : List Char) : pathComponents p ≠ [] := List.splitOnP_ne_nil _ p

theorem pathComponents_slash (cs : List Char) : pathComponents ('/' :: cs) = [] :: pathComponents cs := by
  rw [pathComponents, List.splitOn, List.splitOnP_cons_eq_if_modifyHead, if_pos (by decide)]
  rfl

theorem pathComponents_cons (hc : c ≠ '/') {f : List Char} {fs : List (List Char)}
    (h : pathComponents cs = f :: fs) :
    pathComponents (c :: cs) = (c :: f) :: fs := by
  rw [pathComponents, List.splitOn] at h
  rw [pathComponents, List.splitOn, List.splitOnP_cons_eq_if_modifyHead, if_neg (by simpa using hc), h]
  rfl

theorem pathComponents_append (pre suf : List Char) :
    pathComponents (pre ++ '/' :: suf) = pathComponents pre ++ pathComponents suf :=
  List.splitOnP_append_cons pre suf (by decide)

theorem slash_notMem_of_mem (p : List Char) : ∀ comp ∈ pathComponents p, '/' ∉ comp := by
  induction p with
  | nil => simp [pathComponents]
  | cons c cs ih =>
    obtain ⟨f, fs, hfs⟩ := List.exists_cons_of_ne_nil (pathComponents_ne_nil cs)
    by_cases hc : c = '/'
    · rw [hc, pathComponents_slash]
      exact List.forall_mem_cons.mpr ⟨List.not_mem_nil, ih⟩
    · rw [hfs] at ih
      obtain ⟨hf, hrest⟩ := List.forall_mem_cons.mp ih
      rw [pathComponents_cons hc hfs]
      refine List.forall_mem_cons.mpr ⟨fun hmem => ?_, hrest⟩
      rcases List.mem_cons.mp hmem with heq | hmem
      · exact hc heq.symm
      · exact hf hmem

theorem pathComponents_of_notMem (h : '/' ∉ p) : pathComponents p = [p] := by
  induction p with
  | nil => rfl
  | cons c cs ih =>
    exact pathComponents_cons (List.ne_of_not_mem_cons h).symm (ih (List.not_mem_of_not_mem_cons h))

theorem pathComponents_of_mem (h : '/' ∈ p) : ∃ f g fs, pathComponents p = f :: g :: fs := by
  obtain ⟨pre, suf, rfl⟩ := List.append_of_mem h
  obtain ⟨f, fs, hfs⟩ := List.exists_cons_of_ne_nil (pathComponents_ne_nil pre)
  obtain ⟨g, gs, hgs⟩ := List.exists_cons_of_ne_nil (pathComponents_ne_nil suf)
  rw [pathComponents_append, hfs, hgs]
  cases fs with
  | nil => exact ⟨f, g, gs, rfl⟩
  | cons f' fs => exact ⟨f, f', fs ++ g :: gs, rfl⟩

/-! ## Denotations -/

/-- Without `..`, the components are those that are not dropped. -/
theorem resolve_of_no_parents (h : ['.', '.'] ∉ pathComponents p) :
    resolve p = (isAbsolutePath p, (pathComponents p).filter fun comp => ¬IsVoid comp) := by
  have hfold : ∀ (comps stack : List (List Char)), ['.', '.'] ∉ comps →
      comps.foldl resolveStep stack = (comps.filter fun comp => ¬IsVoid comp).reverse ++ stack := by
    intro comps
    induction comps with
    | nil => exact fun _ _ => rfl
    | cons comp comps ih =>
      intro stack hparents
      have hcomp := (List.ne_of_not_mem_cons hparents).symm
      rw [List.foldl_cons, ih _ (List.not_mem_of_not_mem_cons hparents), List.filter_cons]
      unfold resolveStep
      by_cases hvoid : IsVoid comp
      · rw [if_pos hvoid, if_neg (by simpa using hvoid)]
      · rw [if_neg hvoid, if_neg hcomp, if_pos (by simpa using hvoid), List.reverse_cons, List.append_assoc]
        rfl
  rw [resolve, hfold _ _ h, List.append_nil, List.reverse_reverse]

/-- A single component, which may be `..`. -/
theorem resolve_of_no_separator (h : '/' ∉ p) : resolve p = (false, if IsVoid p then [] else [p]) := by
  have habsolute : isAbsolutePath p = false := by
    refine decide_eq_false fun hhead => h ?_
    exact List.mem_of_mem_head? hhead
  rw [resolve, habsolute, pathComponents_of_notMem h, List.foldl_cons, List.foldl_nil, resolveStep]
  split
  · rfl
  · split
    · rfl
    · rfl

/-- Two separators in a row make an empty component. -/
theorem not_cleanPath_of_infix (h : ['/', '/'] <:+: p) : ¬CleanPath p := by
  -- one of the two may be the root, and then the other one still has nothing before it
  have hempty : ∃ comps, pathComponents (behindRoot p) = comps ∧ [] ∈ comps ∧ behindRoot p ≠ [] := by
    obtain ⟨pre, suf, rfl⟩ := h
    have hmem : ∀ x, [] ∈ pathComponents (x ++ '/' :: '/' :: suf) := fun x => by
      rw [pathComponents_append, pathComponents_slash]
      exact List.mem_append_right _ List.mem_cons_self
    refine ⟨_, rfl, ?_⟩
    cases pre with
    | nil =>
      have hroot : behindRoot ([] ++ ['/', '/'] ++ suf) = '/' :: suf := rfl
      rw [hroot, pathComponents_slash]
      exact ⟨List.mem_cons_self, List.cons_ne_nil _ _⟩
    | cons c pre =>
      rw [List.append_assoc, behindRoot]
      split
      · exact ⟨hmem pre, List.append_ne_nil_of_right_ne_nil _ (List.cons_ne_nil _ _)⟩
      · exact ⟨hmem (c :: pre), List.cons_ne_nil _ _⟩
  obtain ⟨comps, hcomps, hmem, hne⟩ := hempty
  rintro (hnil | hclean)
  · exact hne hnil
  · exact hclean [] (hcomps ▸ hmem) (Or.inl rfl)

end FailStar
