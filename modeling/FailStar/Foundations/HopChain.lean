import Mathlib.Tactic

/-! # Hop chains

A *trace* is a sequence of positions, each carrying the events that occur at it. From a position one
can *wait* for an event: execution goes on to the first later position at which it occurs. A chain of
such waits, a *hop chain*, leads to a position of the trace.

* **`FirstAfter occ q e p`** — waiting for `e` at position `q` stops at position `p`.
* **`HopChain occ q hops`** — every hop of the chain stops where it says, starting at `q`.
* **`LastUpTo occ k e o`** — `o` is the last occurrence of `e` up to position `k`, if any; this is all
  one has to know to extend a chain by a hop (`LastUpTo.firstAfter`).
* **`waitFor`**, **`navigate`** — waiting as a computation on a finite trace. -/

namespace FailStar

variable {ε : Type*} {occ : ℕ → ε → Prop} {q p k : ℕ} {e : ε}

/-! ## Chains -/

/-- **Waiting for `e` at position `q` stops at position `p`**: its first occurrence strictly after
`q`. -/
structure FirstAfter (occ : ℕ → ε → Prop) (q : ℕ) (e : ε) (p : ℕ) : Prop where
  lt : q < p
  occurs : occ p e
  absent : ∀ r, q < r → r < p → ¬ occ r e

/-- A chain of hops, each an event with the position where waiting for it stops. -/
def HopChain (occ : ℕ → ε → Prop) : ℕ → List (ε × ℕ) → Prop
  | _, [] => True
  | q, (e, p) :: hops => FirstAfter occ q e p ∧ HopChain occ p hops

/-- The position a chain that starts at `q` leads to. -/
def hopTarget (q : ℕ) : List (ε × ℕ) → ℕ
  | [] => q
  | (_, p) :: hops => hopTarget p hops

theorem hopTarget_append (q : ℕ) (xs ys : List (ε × ℕ)) :
    hopTarget q (xs ++ ys) = hopTarget (hopTarget q xs) ys := by
  induction xs generalizing q with
  | nil => rfl
  | cons hd tl ih => exact ih hd.2

@[simp] theorem hopTarget_concat (q : ℕ) (hops : List (ε × ℕ)) (hop : ε × ℕ) :
    hopTarget q (hops ++ [hop]) = hop.2 :=
  hopTarget_append q hops [hop]

/-- Two chains compose if the second one begins at the target of the first one. -/
theorem hopChain_append {xs ys : List (ε × ℕ)} :
    HopChain occ q (xs ++ ys) ↔ HopChain occ q xs ∧ HopChain occ (hopTarget q xs) ys := by
  induction xs generalizing q with
  | nil => exact ⟨fun h => ⟨trivial, h⟩, And.right⟩
  | cons hd tl ih =>
    rw [List.cons_append, HopChain, HopChain, hopTarget, ih, and_assoc]

theorem hopChain_concat {hops : List (ε × ℕ)} :
    HopChain occ q (hops ++ [(e, p)]) ↔
      HopChain occ q hops ∧ FirstAfter occ (hopTarget q hops) e p := by
  rw [hopChain_append, HopChain, HopChain, and_true]

theorem HopChain.le_hopTarget {hops : List (ε × ℕ)} (h : HopChain occ q hops) :
    q ≤ hopTarget q hops := by
  induction hops generalizing q with
  | nil => exact le_rfl
  | cons hd tl ih => exact h.1.lt.le.trans (ih h.2)

theorem HopChain.of_append {xs ys : List (ε × ℕ)} (h : HopChain occ q (xs ++ ys)) :
    HopChain occ q xs ∧ hopTarget q xs ≤ hopTarget q (xs ++ ys) := by
  obtain ⟨hxs, hys⟩ := hopChain_append.mp h
  rw [hopTarget_append]
  exact ⟨hxs, hys.le_hopTarget⟩

/-- A front part that leads to the target of the chain is the whole chain. -/
theorem HopChain.eq_of_isPrefix {front hops : List (ε × ℕ)} (h : HopChain occ q hops) (hfront : front <+: hops)
    (htarget : hopTarget q hops ≤ hopTarget q front) : front = hops := by
  obtain ⟨rest, rfl⟩ := hfront
  obtain ⟨-, hrest⟩ := hopChain_append.mp h
  cases rest with
  | nil => exact (List.append_nil front).symm
  | cons hop rest =>
    rw [hopTarget_append] at htarget
    exact absurd (hrest.1.lt.trans_le (hrest.2.le_hopTarget.trans htarget)) (lt_irrefl _)

/-! ## Last occurrences -/

/-- **`o` is the last occurrence of `e` up to position `k`**, counted from position 1. -/
structure LastUpTo (occ : ℕ → ε → Prop) (k : ℕ) (e : ε) (o : Option ℕ) : Prop where
  occurs : ∀ q ∈ o, 0 < q ∧ q ≤ k ∧ occ q e
  absent : ∀ r, o.getD 0 < r → r ≤ k → ¬ occ r e

theorem lastUpTo_zero : LastUpTo occ 0 e none :=
  ⟨by simp, fun r hr hr' => by omega⟩

theorem lastUpTo_succ_self (h : occ (k + 1) e) : LastUpTo occ (k + 1) e (some (k + 1)) := by
  refine ⟨fun q hq => ?_, fun r hr hr' => ?_⟩
  · obtain rfl := Option.mem_some.mp hq
    exact ⟨Nat.succ_pos k, le_rfl, h⟩
  · rw [Option.getD_some] at hr
    omega

theorem LastUpTo.succ {o : Option ℕ} (h : LastUpTo occ k e o) (hnot : ¬ occ (k + 1) e) :
    LastUpTo occ (k + 1) e o := by
  refine ⟨fun q hq => ?_, fun r hr hr' => ?_⟩
  · obtain ⟨hpos, hle, hocc⟩ := h.occurs q hq
    exact ⟨hpos, hle.trans (Nat.le_succ k), hocc⟩
  rcases Nat.lt_or_ge k r with hlt | hle
  · obtain rfl : r = k + 1 := by omega
    exact hnot
  · exact h.absent r hr hle

/-- **Extending a chain.** At a position between the last occurrence of `e` and `k`, waiting for `e`
stops at `k + 1` if it occurs there. -/
theorem LastUpTo.firstAfter {o : Option ℕ} {t : ℕ} (h : LastUpTo occ k e o) (ho : o.getD 0 ≤ t)
    (ht : t ≤ k) (hocc : occ (k + 1) e) : FirstAfter occ t e (k + 1) := by
  refine ⟨by omega, hocc, fun r hr hr' => ?_⟩
  exact h.absent r (by omega) (by omega)

/-! ## Navigation on a finite trace -/

/-- The event occurs at position `p` of the trace, counted from 1. -/
def Occurs (ps : List (List ε)) (p : ℕ) (e : ε) : Prop :=
  0 < p ∧ ∃ es, ps[p - 1]? = some es ∧ e ∈ es

theorem occurs_succ {ps : List (List ε)} {es : List ε} (h : ps[k]? = some es) :
    Occurs ps (k + 1) e ↔ e ∈ es := by
  simp [Occurs, h]

variable [DecidableEq ε] {ps : List (List ε)}

/-- **Wait for an event** at position `q` of the trace: the position where execution stops, if the
event occurs again. -/
def waitFor (ps : List (List ε)) (q : ℕ) (e : ε) : Option ℕ :=
  ((ps.drop q).findIdx? (fun es => decide (e ∈ es))).map (q + · + 1)

/-- **Wait for one event after the other.** -/
def navigate (ps : List (List ε)) (q : ℕ) (es : List ε) : Option ℕ := es.foldlM (waitFor ps) q

/-- `waitFor` computes the first occurrence strictly after the starting point. -/
theorem waitFor_eq_some_iff : waitFor ps q e = some p ↔ FirstAfter (Occurs ps) q e p := by
  rw [waitFor, Option.map_eq_some_iff]
  constructor
  · rintro ⟨i, hi, rfl⟩
    rw [List.findIdx?_eq_some_iff_getElem] at hi
    obtain ⟨hlt, hmem, habsent⟩ := hi
    refine ⟨by omega, (occurs_succ (List.getElem?_eq_getElem ?_)).mpr ?_, fun r hr hr' hocc => ?_⟩
    · rw [List.length_drop] at hlt
      omega
    · simpa using hmem
    · obtain ⟨hpos, es, hes, he⟩ := hocc
      have hmiss := habsent (r - 1 - q) (by omega)
      rw [List.getElem_drop] at hmiss
      simp only [show q + (r - 1 - q) = r - 1 by omega] at hmiss
      rw [List.getElem?_eq_some_iff] at hes
      obtain ⟨_, rfl⟩ := hes
      exact hmiss (by simpa using he)
  · rintro ⟨hlt, ⟨hpos, es, hes, he⟩, habsent⟩
    obtain ⟨hp, rfl⟩ := List.getElem?_eq_some_iff.mp hes
    refine ⟨p - 1 - q, ?_, by omega⟩
    rw [List.findIdx?_eq_some_iff_getElem]
    refine ⟨by rw [List.length_drop]; omega, ?_, fun i hi => ?_⟩
    · rw [List.getElem_drop]
      simpa only [show q + (p - 1 - q) = p - 1 by omega, decide_eq_true_eq] using he
    · have hmiss := habsent (q + i + 1) (by omega) (by omega)
      rw [occurs_succ (List.getElem?_eq_getElem (by omega))] at hmiss
      rw [List.getElem_drop]
      simpa using hmiss

/-- **A hop chain leads where it says**: waiting for its events one after the other stops at its
target. -/
theorem HopChain.navigate {hops : List (ε × ℕ)} (h : HopChain (Occurs ps) q hops) :
    navigate ps q (hops.map Prod.fst) = some (hopTarget q hops) := by
  induction hops generalizing q with
  | nil => rfl
  | cons hd tl ih =>
    obtain ⟨hfirst, htail⟩ := h
    rw [List.map_cons, FailStar.navigate, List.foldlM_cons, waitFor_eq_some_iff.mpr hfirst]
    exact ih htail

end FailStar
