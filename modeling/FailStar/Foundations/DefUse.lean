import Mathlib.Tactic

/-! # Def/use classes of a stream of accesses

Accesses to addresses arrive in the order of the instructions that make them. The time line of every
address is cut behind each instruction that accesses it: within a *span* the address is not accessed
before the last instruction, so that a disturbance anywhere in the span is first noticed there. A last,
open span ends with the run.

* **`Tiles lo ss hi`** — the spans `ss` lie one behind the other and together cover `[lo, hi)`.
* **`DefUse.access`**, **`DefUse.close`** — the classification, one access at a time.
* **`DefUse.Consistent`** — its invariant; **`DefUse.consistent_foldl`** for a whole stream.
* **`DefUse.exists_span_iff`** — the accesses that end a span.
* **`DefUse.classified`** — behind the close, every instruction lies in exactly one span of each closed
  address, and the span names the first access at or behind the instruction, or there is none. -/

namespace FailStar

variable {α τ : Type*}

/-- One access: the instruction that makes it, the address, and the type of the access. -/
structure Access (α τ : Type*) where
  instr : ℕ
  address : α
  type : τ
  deriving DecidableEq, Repr

/-- A span of instructions of one address, ended by an access of the given type (`real`) or by the end of
the run. -/
structure Span (α τ : Type*) where
  first : ℕ
  last : ℕ
  address : α
  type : τ
  real : Bool
  deriving DecidableEq, Repr

/-- The instruction `t` lies in the span. -/
def Span.Covers (s : Span α τ) (t : ℕ) : Prop := s.first ≤ t ∧ t ≤ s.last

instance (s : Span α τ) (t : ℕ) : Decidable (s.Covers t) := inferInstanceAs (Decidable (_ ∧ _))

/-! ## Tilings -/

/-- **The spans tile `[lo, hi)`.** -/
def Tiles : ℕ → List (Span α τ) → ℕ → Prop
  | lo, [], hi => lo = hi
  | lo, s :: ss, hi => s.first = lo ∧ lo ≤ s.last ∧ Tiles (s.last + 1) ss hi

variable {lo mid hi t : ℕ} {s : Span α τ} {ss : List (Span α τ)}

theorem Tiles.snoc (h : Tiles lo ss mid) (hfirst : s.first = mid) (hle : mid ≤ s.last) :
    Tiles lo (ss ++ [s]) (s.last + 1) := by
  induction ss generalizing lo with
  | nil =>
    obtain rfl : lo = mid := h
    exact ⟨hfirst, hle, rfl⟩
  | cons hd tl ih =>
    obtain ⟨hhd, hlast, htl⟩ := h
    exact ⟨hhd, hlast, ih htl⟩

/-- No span of a tiling covers what is in front of it. -/
theorem Tiles.filter_covers_eq_nil (h : Tiles lo ss hi) (ht : t < lo) :
    ss.filter (fun s => s.Covers t) = [] := by
  induction ss generalizing lo with
  | nil => rfl
  | cons hd tl ih =>
    obtain ⟨hhd, hlast, htl⟩ := h
    have hnot : ¬ hd.Covers t := fun hc => by
      have := hc.1
      omega
    rw [List.filter_cons_of_neg (by simpa using hnot), ih htl (by omega)]

/-- **Exactly one span of a tiling covers an instruction.** -/
theorem Tiles.filter_covers (h : Tiles lo ss hi) (hlo : lo ≤ t) (hhi : t < hi) :
    ∃ s, ss.filter (fun s => s.Covers t) = [s] := by
  induction ss generalizing lo with
  | nil =>
    obtain rfl : lo = hi := h
    omega
  | cons hd tl ih =>
    obtain ⟨hhd, hlast, htl⟩ := h
    by_cases hle : t ≤ hd.last
    · have hc : hd.Covers t := ⟨by omega, hle⟩
      refine ⟨hd, ?_⟩
      rw [List.filter_cons_of_pos (by simpa using hc), htl.filter_covers_eq_nil (by omega)]
    · have hnot : ¬ hd.Covers t := fun hc => hle hc.2
      rw [List.filter_cons_of_neg (by simpa using hnot)]
      exact ih htl (by omega)

/-! ## First accesses -/

variable [DecidableEq α] {xs : List (Access α τ)} {x : Access α τ} {a : α} {i : ℕ} {ty : τ}

/-- **Instruction `i` is the first one at or behind `t` that accesses `a`**, and `ty` is the type of the
first access to `a` within it. -/
structure FirstAccess (xs : List (Access α τ)) (a : α) (t i : ℕ) (ty : τ) : Prop where
  le : t ≤ i
  least : ∀ x ∈ xs, x.address = a → t ≤ x.instr → i ≤ x.instr
  type : (xs.find? fun x => x.address = a ∧ x.instr = i).map Access.type = some ty

theorem FirstAccess.exists_mem (h : FirstAccess xs a t i ty) :
    ∃ x ∈ xs, x.address = a ∧ x.instr = i := by
  obtain ⟨x, hx, -⟩ := Option.map_eq_some_iff.mp h.type
  exact ⟨x, List.mem_of_find?_eq_some hx, by simpa using List.find?_some hx⟩

theorem FirstAccess.mono {t' : ℕ} (h : FirstAccess xs a t i ty) (ht : t ≤ t') (hi : t' ≤ i) :
    FirstAccess xs a t' i ty :=
  ⟨hi, fun x hx ha hle => h.least x hx ha (ht.trans hle), h.type⟩

theorem FirstAccess.append (h : FirstAccess xs a t i ty) (hx : i ≤ x.instr) :
    FirstAccess (xs ++ [x]) a t i ty := by
  refine ⟨h.le, fun y hy ha hle => ?_, ?_⟩
  · rcases List.mem_append.mp hy with hy | hy
    · exact h.least y hy ha hle
    · obtain rfl := List.mem_singleton.mp hy
      exact hx
  · obtain ⟨y, hy, hty⟩ := Option.map_eq_some_iff.mp h.type
    rw [List.find?_append, hy, Option.some_or, Option.map_some, hty]

/-- An access behind all accesses to its address is a first one. -/
theorem firstAccess_append_self (hbefore : ∀ y ∈ xs, y.address = x.address → y.instr < t)
    (ht : t ≤ x.instr) : FirstAccess (xs ++ [x]) x.address t x.instr x.type := by
  refine ⟨ht, fun y hy ha hle => ?_, ?_⟩
  · rcases List.mem_append.mp hy with hy | hy
    · have := hbefore y hy ha
      omega
    · rw [List.mem_singleton.mp hy]
  · have hnone : xs.find? (fun y => y.address = x.address ∧ y.instr = x.instr) = none := by
      refine List.find?_eq_none.mpr fun y hy => ?_
      simp only [decide_eq_true_eq, not_and]
      intro ha
      have := hbefore y hy ha
      omega
    rw [List.find?_append, hnone, Option.none_or]
    simp

theorem FirstAccess.of_filter {keep : Access α τ → Bool} (h : FirstAccess (xs.filter keep) a t i ty)
    (hkeep : ∀ x ∈ xs, x.address = a → keep x = true) : FirstAccess xs a t i ty := by
  refine ⟨h.le, fun x hx ha hle => h.least x (List.mem_filter.mpr ⟨hx, hkeep x hx ha⟩) ha hle, ?_⟩
  rw [← h.type, List.find?_filter]
  congr 1
  refine List.find?_congr fun x hx => ?_
  by_cases ha : x.address = a
  · simp [ha, hkeep x hx ha]
  · simp [ha]

/-! ## The classification -/

/-- The spans found so far, and where the open span of every address starts. -/
structure DefUse (α τ : Type*) where
  openAt : α → ℕ := fun _ => 0
  spans : List (Span α τ) := []

namespace DefUse

variable {c : DefUse α τ} {as : List α} {last : ℕ} {margin : τ}

/-- The spans of one address. -/
def spansOf (c : DefUse α τ) (a : α) : List (Span α τ) := c.spans.filter fun s => s.address = a

/-- **An access** ends the open span of its address, unless the instruction has ended it already. -/
def access (c : DefUse α τ) (x : Access α τ) : DefUse α τ :=
  if c.openAt x.address ≤ x.instr then
    { openAt := Function.update c.openAt x.address (x.instr + 1)
      spans := c.spans ++ [⟨c.openAt x.address, x.instr, x.address, x.type, true⟩] }
  else c

/-- The end of the run ends the open span of an address, unless it is empty. -/
def closeAddress (last : ℕ) (margin : τ) (c : DefUse α τ) (a : α) : DefUse α τ :=
  if c.openAt a ≤ last then { c with spans := c.spans ++ [⟨c.openAt a, last, a, margin, false⟩] } else c

/-- **The end of the run**, for a list of addresses. -/
def close (last : ℕ) (margin : τ) (c : DefUse α τ) (as : List α) : DefUse α τ :=
  as.foldl (closeAddress last margin) c

/-- **The invariant of the classification** of the accesses `xs`. -/
structure Consistent (xs : List (Access α τ)) (c : DefUse α τ) : Prop where
  tiles : ∀ a, Tiles 0 (c.spansOf a) (c.openAt a)
  real : ∀ s ∈ c.spans, s.real = true ∧ FirstAccess xs s.address s.first s.last s.type
  before : ∀ x ∈ xs, x.instr < c.openAt x.address
  openAt : ∀ a, c.openAt a = 0 ∨ ∃ x ∈ xs, x.address = a ∧ c.openAt a = x.instr + 1

theorem consistent_init : Consistent ([] : List (Access α τ)) {} :=
  ⟨fun _ => rfl, by simp, by simp, fun _ => .inl rfl⟩

/-- The open span of the accessed address starts behind the access, if it did not already. -/
theorem openAt_access (c : DefUse α τ) (x : Access α τ) (a : α) : (c.access x).openAt a =
    if a = x.address then max (c.openAt a) (x.instr + 1) else c.openAt a := by
  rw [access]
  by_cases hle : c.openAt x.address ≤ x.instr
  · rw [if_pos hle]
    by_cases ha : a = x.address
    · subst ha
      simp only [Function.update_self, if_true]
      omega
    · simp only [Function.update_of_ne ha, if_neg ha]
  · rw [if_neg hle]
    by_cases ha : a = x.address
    · subst ha
      rw [if_pos rfl]
      omega
    · rw [if_neg ha]

theorem spans_access (c : DefUse α τ) (x : Access α τ) : (c.access x).spans = c.spans ++
    if c.openAt x.address ≤ x.instr then [⟨c.openAt x.address, x.instr, x.address, x.type, true⟩] else [] := by
  rw [access]
  split <;> simp

/-- An access extends the tiling of its address and leaves the others alone. -/
theorem Consistent.tiles_access (h : Consistent xs c) (a : α) :
    Tiles 0 ((c.access x).spansOf a) ((c.access x).openAt a) := by
  rw [openAt_access, spansOf, spans_access, List.filter_append]
  by_cases ha : a = x.address
  · subst ha
    rw [if_pos rfl]
    by_cases hle : c.openAt x.address ≤ x.instr
    · rw [if_pos hle, max_eq_right (by omega), List.filter_cons_of_pos (by simp), List.filter_nil]
      exact (h.tiles x.address).snoc rfl hle
    · rw [if_neg hle, max_eq_left (by omega), List.filter_nil, List.append_nil]
      exact h.tiles x.address
  · have hnil : (if c.openAt x.address ≤ x.instr then
        [(⟨c.openAt x.address, x.instr, x.address, x.type, true⟩ : Span α τ)] else []).filter
          (fun s => s.address = a) = [] := by
      split <;> simp [Ne.symm ha]
    rw [if_neg ha, hnil, List.append_nil]
    exact h.tiles a

/-- The span an access ends is ended by a first access, and so are the earlier spans. -/
theorem Consistent.real_access (h : Consistent xs c) (hsorted : ∀ y ∈ xs, y.instr ≤ x.instr)
    (hs : s ∈ (c.access x).spans) :
    s.real = true ∧ FirstAccess (xs ++ [x]) s.address s.first s.last s.type := by
  rw [spans_access] at hs
  rcases List.mem_append.mp hs with hs | hs
  · obtain ⟨hreal, hfirst⟩ := h.real s hs
    obtain ⟨y, hy, -, hlast⟩ := hfirst.exists_mem
    exact ⟨hreal, hfirst.append (hlast ▸ hsorted y hy)⟩
  · split at hs
    · rename_i hle
      obtain rfl := List.mem_singleton.mp hs
      exact ⟨rfl, firstAccess_append_self (fun y hy ha => ha ▸ h.before y hy) hle⟩
    · simp at hs

/-- **One access keeps the invariant.** -/
theorem Consistent.access (h : Consistent xs c) (hsorted : ∀ y ∈ xs, y.instr ≤ x.instr) :
    Consistent (xs ++ [x]) (c.access x) := by
  refine ⟨h.tiles_access, fun s hs => h.real_access hsorted hs, fun y hy => ?_, fun a => ?_⟩
  · rw [openAt_access]
    rcases List.mem_append.mp hy with hy | hy
    · have := h.before y hy
      split <;> omega
    · obtain rfl := List.mem_singleton.mp hy
      rw [if_pos rfl]
      omega
  · rw [openAt_access]
    have hold : c.openAt a = 0 ∨ ∃ y ∈ xs ++ [x], y.address = a ∧ c.openAt a = y.instr + 1 := by
      rcases h.openAt a with hzero | ⟨y, hy, ha, heq⟩
      · exact .inl hzero
      · exact .inr ⟨y, List.mem_append_left _ hy, ha, heq⟩
    by_cases ha : a = x.address
    · rw [if_pos ha]
      by_cases hle : c.openAt a ≤ x.instr
      · exact .inr ⟨x, by simp, ha.symm, max_eq_right (by omega)⟩
      · rwa [max_eq_left (by omega)]
    · rwa [if_neg ha]

/-- **A stream of accesses keeps the invariant.** -/
theorem consistent_foldl (hsorted : xs.Pairwise fun x y => x.instr ≤ y.instr) :
    Consistent xs (xs.foldl DefUse.access {}) := by
  induction xs using List.reverseRecOn with
  | nil => exact consistent_init
  | append_singleton xs x ih =>
    rw [List.foldl_append, List.foldl_cons, List.foldl_nil]
    have hparts := List.pairwise_append.mp hsorted
    exact (ih hparts.1).access fun y hy => hparts.2.2 y hy x (by simp)

/-- The open span of an address starts behind all accesses to it. -/
theorem Consistent.openAt_le_iff (h : Consistent xs c) {a : α} {i : ℕ} :
    c.openAt a ≤ i ↔ ∀ x ∈ xs, x.address = a → x.instr < i := by
  constructor
  · rintro hle x hx rfl
    exact (h.before x hx).trans_le hle
  · intro hlt
    rcases h.openAt a with hzero | ⟨x, hx, ha, heq⟩
    · omega
    · have := hlt x hx ha
      omega

/-- **An access ends a span** if it is the first one of its instruction to the address. -/
theorem exists_span_iff {ty : τ} (hsorted : xs.Pairwise fun x y => x.instr ≤ y.instr) :
    (∃ s ∈ (xs.foldl DefUse.access {}).spans, s.type = ty) ↔
      ∃ front x back, xs = front ++ x :: back ∧ x.type = ty ∧ ∀ y ∈ front, y.address = x.address →
        y.instr ≠ x.instr := by
  induction xs using List.reverseRecOn with
  | nil => simp
  | append_singleton xs x ih =>
    obtain ⟨hfront, -, hlast⟩ := List.pairwise_append.mp hsorted
    have hle : ∀ y ∈ xs, y.instr ≤ x.instr := fun y hy => hlast y hy x (List.mem_singleton_self x)
    have hnew : (xs.foldl DefUse.access {}).openAt x.address ≤ x.instr ↔
        ∀ y ∈ xs, y.address = x.address → y.instr ≠ x.instr := by
      rw [(consistent_foldl hfront).openAt_le_iff]
      exact forall₃_congr fun y hy _ => ⟨Nat.ne_of_lt, (hle y hy).lt_of_ne⟩
    rw [List.foldl_append, List.foldl_cons, List.foldl_nil, spans_access]
    constructor
    · rintro ⟨s, hs, rfl⟩
      rcases List.mem_append.mp hs with hs | hs
      · obtain ⟨front, y, back, rfl, hty, hfirst⟩ := (ih hfront).mp ⟨s, hs, rfl⟩
        exact ⟨front, y, back ++ [x], by simp, hty, hfirst⟩
      · split at hs
        · rename_i hopen
          rw [List.mem_singleton.mp hs]
          exact ⟨xs, x, [], rfl, rfl, hnew.mp hopen⟩
        · cases hs
    · rintro ⟨front, y, back, heq, rfl, hfirst⟩
      rcases List.eq_nil_or_concat' back with rfl | ⟨back, z, rfl⟩
      · -- the access is the last one
        obtain ⟨rfl, hxy⟩ := List.append_inj' heq rfl
        obtain rfl := List.singleton_inj.mp hxy
        exact ⟨_,
          List.mem_append_right _ (by rw [if_pos (hnew.mpr hfirst)]; exact List.mem_singleton_self _), rfl⟩
      · have hsplit : xs ++ [x] = (front ++ y :: back) ++ [z] := by rw [heq]; simp
        obtain ⟨rfl, -⟩ := List.append_inj' hsplit rfl
        obtain ⟨s, hs, hty⟩ := (ih hfront).mpr ⟨front, y, back, rfl, rfl, hfirst⟩
        exact ⟨s, List.mem_append_left _ hs, hty⟩

/-! ## The end of the run -/

omit [DecidableEq α] in
theorem close_cons (a : α) (as : List α) : close last margin c (a :: as) =
    close last margin (closeAddress last margin c a) as := rfl

omit [DecidableEq α] in
theorem closeAddress_openAt (a : α) : (closeAddress last margin c a).openAt = c.openAt := by
  rw [closeAddress]
  split <;> rfl

theorem spansOf_closeAddress_of_ne {a' : α} (h : a' ≠ a) :
    (closeAddress last margin c a').spansOf a = c.spansOf a := by
  rw [closeAddress]
  split
  · simp [spansOf, h]
  · rfl

theorem spansOf_closeAddress_self (a : α) : (closeAddress last margin c a).spansOf a =
    c.spansOf a ++ if c.openAt a ≤ last then [⟨c.openAt a, last, a, margin, false⟩] else [] := by
  rw [closeAddress]
  split <;> simp [spansOf]

theorem spansOf_close_of_notMem (h : a ∉ as) : (close last margin c as).spansOf a = c.spansOf a := by
  induction as generalizing c with
  | nil => rfl
  | cons hd tl ih =>
    rw [List.mem_cons, not_or] at h
    rw [close_cons, ih h.2, spansOf_closeAddress_of_ne (Ne.symm h.1)]

theorem spansOf_close (hnodup : as.Nodup) (ha : a ∈ as) : (close last margin c as).spansOf a =
    c.spansOf a ++ if c.openAt a ≤ last then [⟨c.openAt a, last, a, margin, false⟩] else [] := by
  induction as generalizing c with
  | nil => simp at ha
  | cons hd tl ih =>
    obtain ⟨hhd, htl⟩ := List.nodup_cons.mp hnodup
    rw [close_cons]
    rcases List.mem_cons.mp ha with rfl | ha
    · rw [spansOf_close_of_notMem hhd, spansOf_closeAddress_self]
    · have hne : hd ≠ a := fun heq => hhd (heq ▸ ha)
      rw [ih htl ha, spansOf_closeAddress_of_ne hne, closeAddress_openAt]

/-- **Behind the end of the run** the spans of a closed address tile the run. -/
theorem Consistent.tiles_close (h : Consistent xs c) (margin : τ) (hlast : ∀ x ∈ xs, x.instr ≤ last)
    (hnodup : as.Nodup) (ha : a ∈ as) : Tiles 0 ((close last margin c as).spansOf a) (last + 1) := by
  rw [spansOf_close hnodup ha]
  split
  · rename_i hle
    exact (h.tiles a).snoc rfl hle
  · rename_i hnot
    have hopen : c.openAt a = last + 1 := by
      rcases h.openAt a with hzero | ⟨x, hx, -, heq⟩
      · omega
      · have := hlast x hx
        omega
    rw [List.append_nil, ← hopen]
    exact h.tiles a

/-- **The classification is right.** Every instruction of the run lies in exactly one span of a closed
address. A real span ends with the first access to the address at or behind the instruction and has its
type; if the span is not real, there is no such access. -/
theorem classified (margin : τ) (hsorted : xs.Pairwise fun x y => x.instr ≤ y.instr)
    (hlast : ∀ x ∈ xs, x.instr ≤ last) (hnodup : as.Nodup) (ha : a ∈ as) (ht : t ≤ last) :
    ∃ s, ((close last margin (xs.foldl DefUse.access {}) as).spansOf a).filter (fun s => s.Covers t) = [s] ∧
      (s.real = true → FirstAccess xs a t s.last s.type) ∧
      (s.real = false → ∀ x ∈ xs, x.address = a → x.instr < t) := by
  have h := consistent_foldl hsorted
  obtain ⟨s, hs⟩ := (h.tiles_close margin hlast hnodup ha).filter_covers (Nat.zero_le t)
    (Nat.lt_succ_of_le ht)
  have hmem : s ∈ [s] := List.mem_singleton_self s
  rw [← hs, List.mem_filter, decide_eq_true_eq, spansOf_close hnodup ha, List.mem_append] at hmem
  obtain ⟨hmem, hfirst, hle⟩ := hmem
  refine ⟨s, hs, fun hreal => ?_, fun hreal => ?_⟩
  · rcases hmem with hmem | hmem
    · obtain ⟨hspan, haddr⟩ := List.mem_filter.mp hmem
      have := (h.real s hspan).2.mono hfirst hle
      rwa [decide_eq_true_eq.mp haddr] at this
    · split at hmem
      · rw [List.mem_singleton.mp hmem] at hreal
        exact absurd hreal (by simp)
      · simp at hmem
  · rcases hmem with hmem | hmem
    · rw [(h.real s (List.mem_filter.mp hmem).1).1] at hreal
      exact absurd hreal (by simp)
    · split at hmem
      · rw [List.mem_singleton.mp hmem] at hfirst
        intro x hx hax
        exact (hax ▸ h.before x hx).trans_le hfirst
      · simp at hmem

end DefUse

end FailStar
