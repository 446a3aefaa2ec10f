import FailStar.Foundations.HopChain

/-! # Costs of hop chains

Waiting for an event has costs, which may depend on the event waited for before. A chain that is computed
greedily, by cutting off its end and appending one hop, stays cheapest if it also is in all its front parts.

* **`chainCost first step hops`** — the costs of a chain: `first` for its first hop, `step` for every further
  one.
* **`CheapestUpTo`** — every front part of the chain is at most as expensive as any chain that leads farther than
  the front part before it, up to position `k`. So the chain is cheapest (`CheapestUpTo.le`).
* **`CheapestUpTo.extend`** — the exchange argument for one more position, if every position has one event. It is
  applied with equal costs (`CheapestUpTo.extend_count`), and with the costs **`changeCost`**, which are doubled
  for the same event (`CheapestUpTo.extend_change`). -/

namespace FailStar

variable {ε : Type*} {first : ε → ℕ} {step : ε → ε → ℕ}

/-! ## Costs -/

/-- The costs of further hops behind a hop to `e`. -/
def costBehind (step : ε → ε → ℕ) : ε → List (ε × ℕ) → ℕ
  | _, [] => 0
  | e, hop :: hops => step e hop.1 + costBehind step hop.1 hops

/-- **The costs of a chain.** -/
def chainCost (first : ε → ℕ) (step : ε → ε → ℕ) : List (ε × ℕ) → ℕ
  | [] => 0
  | hop :: hops => first hop.1 + costBehind step hop.1 hops

theorem costBehind_concat (e : ε) (hops : List (ε × ℕ)) (x y : ε × ℕ) :
    costBehind step e (hops ++ [x] ++ [y]) = costBehind step e (hops ++ [x]) + step x.1 y.1 := by
  induction hops generalizing e with
  | nil => simp [costBehind]
  | cons hop hops ih => simp only [List.cons_append, costBehind, ih, Nat.add_assoc]

theorem chainCost_concat (hops : List (ε × ℕ)) (x y : ε × ℕ) :
    chainCost first step (hops ++ [x] ++ [y]) = chainCost first step (hops ++ [x]) + step x.1 y.1 := by
  cases hops with
  | nil => simp [chainCost, costBehind]
  | cons hop hops => simp only [List.cons_append, chainCost, costBehind_concat, Nat.add_assoc]

theorem chainCost_singleton (x : ε × ℕ) : chainCost first step [x] = first x.1 := rfl

theorem chainCost_le_append (hops more : List (ε × ℕ)) :
    chainCost first step hops ≤ chainCost first step (hops ++ more) := by
  have hbehind : ∀ (e : ε) (hops : List (ε × ℕ)), costBehind step e hops ≤ costBehind step e (hops ++ more) := by
    intro e hops
    induction hops generalizing e with
    | nil => exact Nat.zero_le _
    | cons hop hops ih => exact Nat.add_le_add_left (ih hop.1) _
  cases hops with
  | nil => exact Nat.zero_le _
  | cons hop hops => exact Nat.add_le_add_left (hbehind hop.1 hops) _

theorem chainCost_one (hops : List (ε × ℕ)) : chainCost (fun _ => 1) (fun _ _ => 1) hops = hops.length := by
  have hbehind : ∀ (e : ε) (hops : List (ε × ℕ)), costBehind (fun _ _ => 1) e hops = hops.length := by
    intro e hops
    induction hops generalizing e with
    | nil => rfl
    | cons hop hops ih => rw [costBehind, ih, List.length_cons, Nat.add_comm]
  cases hops with
  | nil => rfl
  | cons hop hops => rw [chainCost, hbehind, List.length_cons, Nat.add_comm]

/-! ## Cheapest chains -/

variable {occ : ℕ → ε → Prop} {k : ℕ} {e : ε} {front back hops other : List (ε × ℕ)} {x : ε × ℕ}

/-- **Every front part of the chain is cheapest**, among the chains to the positions behind the part before
it. -/
def CheapestUpTo (occ : ℕ → ε → Prop) (first : ε → ℕ) (step : ε → ε → ℕ) (k : ℕ) (hops : List (ε × ℕ)) : Prop :=
  ∀ front x back, hops = front ++ x :: back → ∀ other, HopChain occ 0 other →
    hopTarget 0 front < hopTarget 0 other → hopTarget 0 other ≤ k →
    chainCost first step (front ++ [x]) ≤ chainCost first step other

/-- A chain that leads somewhere has a last hop. -/
theorem exists_concat_of_hopTarget_pos (h : 0 < hopTarget 0 hops) : ∃ front x, hops = front ++ [x] := by
  rcases List.eq_nil_or_concat' hops with rfl | ⟨front, x, rfl⟩
  · exact absurd h (lt_irrefl 0)
  · exact ⟨front, x, rfl⟩

theorem CheapestUpTo.le (h : CheapestUpTo occ first step k hops) (hchain : HopChain occ 0 hops)
    (htarget : hopTarget 0 hops = k) (hk : 0 < k) (hother : HopChain occ 0 other)
    (htarget' : hopTarget 0 other = k) :
    chainCost first step hops ≤ chainCost first step other := by
  obtain ⟨front, x, rfl⟩ := exists_concat_of_hopTarget_pos (htarget ▸ hk)
  have hlt := (hopChain_append.mp hchain).2.1.lt
  rw [hopTarget_concat] at htarget
  exact h front x [] rfl other hother (by omega) htarget'.le

theorem cheapestUpTo_singleton (hfirst : ∀ e', first e ≤ first e') :
    CheapestUpTo occ first step k [(e, k)] := by
  intro front x back hsplit other hother hlt _
  have hpos : 0 < hopTarget 0 other := Nat.lt_of_le_of_lt (Nat.zero_le _) hlt
  obtain ⟨rfl, rfl, rfl⟩ : front = [] ∧ x = (e, k) ∧ back = [] := by
    cases front with
    | nil => simpa using hsplit.symm
    | cons y front => simp at hsplit
  cases other with
  | nil => exact absurd hpos (lt_irrefl 0)
  | cons hop other => exact (hfirst hop.1).trans (Nat.le_add_right _ _)

/-- **The exchange argument.** The end of a chain to position `k` is replaced by a hop to position `k + 1`. The
result is cheapest in all front parts, if it is cheapest and the new hop costs no more than the first one it
replaces. -/
theorem CheapestUpTo.extend (h : CheapestUpTo occ first step k (front ++ x :: back))
    (htarget : hopTarget 0 (front ++ x :: back) = k)
    (hbest : ∀ other e', HopChain occ 0 (other ++ [(e', k + 1)]) →
      chainCost first step (front ++ [x] ++ [(e, k + 1)]) ≤ chainCost first step (other ++ [(e', k + 1)]))
    (hcheap : ∀ z ∈ back.head?, step x.1 e ≤ step x.1 z.1) :
    CheapestUpTo occ first step (k + 1) (front ++ [x] ++ [(e, k + 1)]) := by
  intro front' y back' hsplit other hother hlt hle
  rcases Nat.lt_or_ge k (hopTarget 0 other) with hnew | hold
  · -- a chain to the new position
    obtain ⟨other, ⟨e', p⟩, rfl⟩ := exists_concat_of_hopTarget_pos (Nat.lt_of_le_of_lt (Nat.zero_le _) hlt)
    rw [hopTarget_concat] at hnew hle
    obtain rfl : p = k + 1 := by dsimp only at hnew hle; omega
    refine le_trans ?_ (hbest other e' hother)
    rw [hsplit, List.append_cons front' y back']
    exact chainCost_le_append _ _
  · rcases List.eq_nil_or_concat' back' with rfl | ⟨back', z, rfl⟩
    · -- the whole chain, compared with a chain to a position that the replaced end went to
      obtain ⟨rfl, hy⟩ := List.append_inj' hsplit rfl
      obtain rfl := (List.cons.inj hy).1
      rw [hopTarget_concat] at hlt
      cases back with
      | nil =>
        rw [hopTarget_concat] at htarget
        omega
      | cons z back =>
        have hprev := h (front ++ [x]) z back (by simp) other hother (by rwa [hopTarget_concat]) hold
        have hz := hcheap z rfl
        rw [chainCost_concat] at hprev ⊢
        dsimp only
        omega
    · -- a front part of the old chain
      have hsplit' : front ++ [x] ++ [(e, k + 1)] = (front' ++ y :: back') ++ [z] := by
        rw [hsplit]
        simp
      obtain ⟨hfront, -⟩ := List.append_inj' hsplit' rfl
      refine h front' y (back' ++ back) ?_ other hother hlt hold
      rw [List.append_cons front x back, hfront]
      simp

section OneEvent

/-! ## Positions with one event -/

variable {prev : ℕ} (hone : ∀ p e e', occ p e → occ p e' → e = e') (hlast : LastUpTo occ k e (some prev))
  (hocc : occ (k + 1) e)

include hone hocc in
/-- The last hop of a chain to the next position. -/
theorem eq_of_hopChain_concat {e' : ε} (h : HopChain occ 0 (other ++ [(e', k + 1)])) : e' = e :=
  hone (k + 1) e' e (hopChain_concat.mp h).2.occurs hocc

include hlast in
/-- It starts at or behind the last occurrence of its event. -/
theorem le_hopTarget_of_concat (h : HopChain occ 0 (other ++ [(e, k + 1)])) :
    prev ≤ hopTarget 0 other ∧ hopTarget 0 other ≤ k := by
  have hfirst := (hopChain_concat.mp h).2
  obtain ⟨-, hle, hprev⟩ := hlast.occurs prev rfl
  have hlt := hfirst.lt
  refine ⟨?_, by omega⟩
  by_contra hbefore
  exact hfirst.absent prev (by omega) (by omega) hprev

theorem occ_of_hopChain_concat (h : HopChain occ 0 (front ++ [x])) : occ x.2 x.1 :=
  (hopChain_concat.mp h).2.occurs

include hone hlast hocc

/-- **Counting hops**: the front part is the shortest one that reaches the last occurrence. -/
theorem CheapestUpTo.extend_count (h : CheapestUpTo occ (fun _ => 1) (fun _ _ => 1) k (front ++ x :: back))
    (htarget : hopTarget 0 (front ++ x :: back) = k) (hfront : hopTarget 0 front < prev) :
    CheapestUpTo occ (fun _ => 1) (fun _ _ => 1) (k + 1) (front ++ [x] ++ [(e, k + 1)]) := by
  refine h.extend htarget (fun other e' hother => ?_) fun _ _ => le_rfl
  obtain rfl := eq_of_hopChain_concat hone hocc hother
  obtain ⟨hge, hle⟩ := le_hopTarget_of_concat hlast hother
  have hcost := h front x back rfl other hother.of_append.1 (by omega) hle
  simp only [chainCost_one, List.length_append, List.length_singleton] at hcost ⊢
  omega

end OneEvent

section SameEvent

/-! ## A surcharge for the same event -/

variable [DecidableEq ε]

/-- The costs of waiting for the same event again are doubled. -/
def changeCost (change : ℕ) (a b : ε) : ℕ := if a = b then 2 * change else change

theorem changeCost_of_ne (change : ℕ) {a b : ε} (h : a ≠ b) : changeCost change a b = change := if_neg h

theorem changeCost_self (change : ℕ) (a : ε) : changeCost change a a = 2 * change := if_pos rfl

theorem le_changeCost (change : ℕ) (a b : ε) : change ≤ changeCost change a b := by
  rw [changeCost]
  split
  · omega
  · exact le_rfl

variable {prev change : ℕ} (hone : ∀ p e e', occ p e → occ p e' → e = e') (hlast : LastUpTo occ k e (some prev))
  (hocc : occ (k + 1) e) (h : CheapestUpTo occ first (changeCost change) k (front ++ x :: back))
  (hchain : HopChain occ 0 (front ++ x :: back))

include hone hlast hocc h hchain

/-- The chain waits for another event behind the last occurrence, which is no more expensive than waiting for the
same event there. -/
theorem CheapestUpTo.best_beyond (hfront : hopTarget 0 front ≤ prev) (hne : x.1 ≠ e) {e' : ε}
    (hother : HopChain occ 0 (other ++ [(e', k + 1)])) :
    chainCost first (changeCost change) (front ++ [x] ++ [(e, k + 1)]) ≤
      chainCost first (changeCost change) (other ++ [(e', k + 1)]) := by
  obtain ⟨hprevPos, -, hprevOcc⟩ := hlast.occurs prev rfl
  obtain rfl := eq_of_hopChain_concat hone hocc hother
  obtain ⟨hge, hle⟩ := le_hopTarget_of_concat hlast hother
  have hother' := hother.of_append.1
  obtain ⟨other, o, rfl⟩ := exists_concat_of_hopTarget_pos (by omega : 0 < hopTarget 0 other)
  rw [chainCost_concat, chainCost_concat, changeCost_of_ne change hne]
  by_cases hbeyond : hopTarget 0 front < hopTarget 0 (other ++ [o])
  · exact Nat.add_le_add (h front x back rfl _ hother' hbeyond hle) (le_changeCost change _ _)
  · -- both chains come to the last occurrence, and the other one waits for the same event there
    obtain ⟨front, z, rfl⟩ := exists_concat_of_hopTarget_pos (by omega : 0 < hopTarget 0 front)
    rw [hopTarget_concat] at hge hle hfront
    rw [hopTarget_concat, hopTarget_concat] at hbeyond
    have hzchain := hchain.of_append.1
    have hzlt := (hopChain_concat.mp hzchain).2.lt
    have hz : z.1 = e' := hone prev _ _ ((by omega : z.2 = prev) ▸ occ_of_hopChain_concat hzchain) hprevOcc
    have ho : o.1 = e' := hone prev _ _ ((by omega : o.2 = prev) ▸ occ_of_hopChain_concat hother') hprevOcc
    have hcost := h front z (x :: back) (by simp) _ hother' (by rw [hopTarget_concat]; omega)
      (by rw [hopTarget_concat]; omega)
    rw [chainCost_concat, hz, ho, changeCost_self, changeCost_of_ne change hne.symm]
    omega

/-- The event occurred at the last position, where all chains come from. -/
theorem CheapestUpTo.best_at (hx : x.2 = k) (hprev : prev = k) {e' : ε}
    (hother : HopChain occ 0 (other ++ [(e', k + 1)])) :
    chainCost first (changeCost change) (front ++ [x] ++ [(e, k + 1)]) ≤
      chainCost first (changeCost change) (other ++ [(e', k + 1)]) := by
  obtain ⟨hprevPos, -, hprevOcc⟩ := hlast.occurs prev rfl
  obtain rfl := eq_of_hopChain_concat hone hocc hother
  obtain ⟨hge, hle⟩ := le_hopTarget_of_concat hlast hother
  have hother' := hother.of_append.1
  obtain ⟨other, o, rfl⟩ := exists_concat_of_hopTarget_pos (by omega : 0 < hopTarget 0 other)
  rw [List.append_cons] at hchain
  have hxchain := hchain.of_append.1
  have hxlt := (hopChain_concat.mp hxchain).2.lt
  have hcost := h front x back rfl _ hother' (by omega) hle
  rw [hopTarget_concat] at hge hle
  have hxe : x.1 = e' := hone prev _ _ ((by omega : x.2 = prev) ▸ occ_of_hopChain_concat hxchain) hprevOcc
  have ho : o.1 = e' := hone prev _ _ ((by omega : o.2 = prev) ▸ occ_of_hopChain_concat hother') hprevOcc
  rw [chainCost_concat, chainCost_concat, hxe, ho]
  exact Nat.add_le_add_right hcost _

/-- **A surcharge for the same event**: the front part is the shortest one that goes beyond the last occurrence,
if there is one. -/
theorem CheapestUpTo.extend_change (htarget : hopTarget 0 (front ++ x :: back) = k)
    (hfront : hopTarget 0 front ≤ prev) (hx : back = [] ∨ prev < x.2) :
    CheapestUpTo occ first (changeCost change) (k + 1) (front ++ [x] ++ [(e, k + 1)]) := by
  obtain ⟨-, hprevLe, -⟩ := hlast.occurs prev rfl
  by_cases hlt : prev < x.2
  · have hxchain := hchain
    rw [List.append_cons] at hxchain
    obtain ⟨hxchain, hxle⟩ := hxchain.of_append
    rw [← List.append_cons, htarget, hopTarget_concat] at hxle
    have hne : x.1 ≠ e := fun heq => hlast.absent x.2 hlt hxle (heq ▸ occ_of_hopChain_concat hxchain)
    refine h.extend htarget (fun other e' => h.best_beyond hone hlast hocc hchain hfront hne) fun z _ => ?_
    rw [changeCost_of_ne change hne]
    exact le_changeCost change _ _
  · obtain rfl := hx.resolve_right hlt
    have hxk := htarget
    rw [hopTarget_concat] at hxk
    exact h.extend htarget (fun other e' => h.best_at hone hlast hocc hchain hxk (by omega)) (by simp)

end SameEvent

end FailStar
