import FailStar.SmartHops.Navigation

/-! # Chains that begin at the first position

A chain that begins with a hop to position 1 is special: whoever navigates along it must see the event of
the position where navigation starts. The hop calculator computes such a chain only as long as no event
occurs that did not occur at position 1, and its simplest form is one and the same event at every position.

* **`spin`** — the chain that waits for an event at every position.
* **`Nested`** — every position has only events of the position before.
* **`SpinChain`** — what is known about the chain behind position `k`; **`hopStateAt_spinChain`** — it holds
  behind every position. -/

namespace FailStar

variable {ps : List (List TraceEventTuple)} {x : TraceEventTuple} {k : ℕ}

/-- The chain that waits for `x` at `k` positions from `p` on. -/
def spin (x : TraceEventTuple) (p k : ℕ) : List ResultTuple := (List.range' p k).map fun q => (x, q)

theorem spin_succ (x : TraceEventTuple) (p k : ℕ) : spin x p (k + 1) = spin x p k ++ [(x, p + k)] := by
  rw [spin, List.range'_concat, List.map_append, one_mul]
  rfl

theorem hopTarget_spin (x : TraceEventTuple) (k : ℕ) : hopTarget 0 (spin x 1 k) = k := by
  cases k with
  | zero => rfl
  | succ k => rw [spin_succ, hopTarget_concat, Nat.add_comm 1 k]

/-- A chain waits for `x` at some positions from `p` on, and its next hop is another one. -/
theorem exists_spin_append (x : TraceEventTuple) (p : ℕ) (chain : List ResultTuple) :
    ∃ j rest, chain = spin x p j ++ rest ∧ rest.head? ≠ some (x, p + j) := by
  induction chain generalizing p with
  | nil => exact ⟨0, [], rfl, by simp⟩
  | cons hop chain ih =>
    by_cases hhop : hop = (x, p)
    · obtain ⟨j, rest, rfl, hrest⟩ := ih (p + 1)
      refine ⟨j + 1, rest, ?_, by rwa [Nat.add_right_comm, Nat.add_assoc] at hrest⟩
      rw [hhop, spin, spin, List.range'_succ, List.map_cons, List.cons_append]
    · exact ⟨0, hop :: chain, rfl, by simpa using hhop⟩

/-- Every position up to `k` has only events of the position before. -/
def Nested (ps : List (List TraceEventTuple)) (k : ℕ) : Prop :=
  ∀ j, 1 ≤ j → j < k → ∀ te, Occurs ps (j + 1) te → Occurs ps j te

theorem Nested.of_succ (h : Nested ps (k + 1)) : Nested ps k :=
  fun j hj hlt => h j hj (hlt.trans (Nat.lt_succ_self k))

theorem Nested.occurs_one {p : ℕ} {te : TraceEventTuple} (h : Nested ps k) (hp : p ≤ k) (hocc : Occurs ps p te) :
    Occurs ps 1 te := by
  induction p with
  | zero => exact absurd hocc.1 (lt_irrefl 0)
  | succ p ih =>
    rcases Nat.eq_zero_or_pos p with rfl | hpos
    · exact hocc
    · exact ih (by omega) (h p hpos hp te hocc)

/-- **What is known about the chain behind position `k`**: it begins behind the first position unless all
events up to `k` occur there, and it waits for `x` at every position iff the positions are nested. -/
structure SpinChain (ps : List (List TraceEventTuple)) (x : TraceEventTuple) (k : ℕ)
    (chain : List ResultTuple) : Prop where
  start : (∃ te p, 1 < p ∧ chain.head? = some (te, p)) ∨
    chain.head? = some (x, 1) ∧ ∀ p ≤ k, ∀ te, Occurs ps p te → Occurs ps 1 te
  spin_iff : chain = spin x 1 k ↔ Nested ps k

/-! ## Last positions -/

variable {st : HopState} {occ : ℕ → TraceEventTuple → Prop} {te : TraceEventTuple} {es : List TraceEventTuple}
  {chain : List ResultTuple}

theorem considers_options (te : TraceEventTuple) : SmartHops.options.considers te = true := rfl

/-- The last position of an event that occurs at the current position. -/
theorem ChainUpTo.lastPositions_of_occurs (h : ChainUpTo SmartHops.options occ k st) (hk : 0 < k)
    (hocc : occ k te) : st.lastPositions te = some k := by
  have hlast := h.last te (considers_options te)
  cases hpos : st.lastPositions te with
  | none =>
    rw [hpos] at hlast
    exact absurd hocc (hlast.absent k hk le_rfl)
  | some q =>
    rw [hpos] at hlast
    obtain ⟨-, hle, -⟩ := hlast.occurs q rfl
    by_cases hlt : q < k
    · exact absurd hocc (hlast.absent k hlt le_rfl)
    · rw [show q = k by omega]

/-- A known event has occurred at its last position. -/
theorem ChainUpTo.occurs_lastPosition (h : ChainUpTo SmartHops.options occ k st)
    (hknown : st.lastPositions te ≠ none) :
    0 < st.lastPosition te ∧ st.lastPosition te ≤ k ∧ occ (st.lastPosition te) te := by
  obtain ⟨q, hq⟩ := Option.ne_none_iff_exists'.mp hknown
  rw [HopState.lastPosition, hq]
  exact (h.last te (considers_options te)).occurs q hq

/-! ## The first position -/

/-- The chain behind the first position is its first event. -/
theorem Extends.eq_of_init {accesses : List TraceEventTuple}
    (h : Extends SmartHops.options {} 1 (x :: accesses) chain) : chain = [(x, 1)] := by
  cases h with
  | @new te hnew =>
    obtain ⟨front, back, heq, hfront⟩ := hnew.split
    cases front with
    | nil => rw [(List.cons.inj heq).1]
    | cons y front => exact absurd rfl (hfront y List.mem_cons_self (considers_options y))
  | known hknown _ _ _ => exact absurd rfl (hknown x List.mem_cons_self (considers_options x))

theorem spinChain_one (ps : List (List TraceEventTuple)) (x : TraceEventTuple) :
    SpinChain ps x 1 [(x, 1)] where
  start := .inr ⟨rfl, fun p hp te hocc => by
    rwa [show p = 1 by have := hocc.1; omega] at hocc⟩
  spin_iff := ⟨fun _ j hj hlt => by omega, fun _ => rfl⟩

/-! ## The next position -/

/-- The chain behind the next position begins as before, or at the next position. -/
theorem SpinChain.start_succ {chain' : List ResultTuple} (h : SpinChain ps x k st.result)
    (hchain : ChainUpTo SmartHops.options (Occurs ps) k st) (hk : 0 < k)
    (hes : ∀ te, Occurs ps (k + 1) te ↔ te ∈ es) (hext : Extends SmartHops.options st (k + 1) es chain') :
    (∃ te p, 1 < p ∧ chain'.head? = some (te, p)) ∨
      chain'.head? = some (x, 1) ∧ ∀ p ≤ k + 1, ∀ te, Occurs ps p te → Occurs ps 1 te := by
  cases hext with
  | @new te hnew => exact .inl ⟨te, k + 1, by omega, rfl⟩
  | @known front best hknown hmin hfront hreaches =>
    obtain ⟨hmem, hconsiders⟩ := List.mem_filter.mp hmin.mem
    obtain ⟨hpos, -, -⟩ := hchain.occurs_lastPosition (hknown best hmem hconsiders)
    -- the part that is kept reaches a last position, so it is not empty
    have hhead : (front ++ [(best, k + 1)]).head? = st.result.head? := by
      obtain ⟨rest, hrest⟩ := hfront
      cases front with
      | nil =>
        simp only [hopTarget] at hreaches
        omega
      | cons hop front =>
        rw [← hrest]
        rfl
    rw [hhead]
    refine h.start.imp_right fun hstart => ⟨hstart.1, fun p hp te hocc => ?_⟩
    have hall := hstart.2
    rcases Nat.lt_or_ge k p with hlt | hle
    · obtain rfl : p = k + 1 := by omega
      have hte := (hes te).mp hocc
      obtain ⟨-, hle, hocc'⟩ := hchain.occurs_lastPosition (hknown te hte (considers_options te))
      exact hall _ hle te hocc'
    · exact hall p hle te hocc

/-- A chain that waits for `x` at every position was extended at every position, by an event that no other
event of the position precedes. -/
theorem SpinChain.nested_succ {chain' : List ResultTuple} (h : SpinChain ps x k st.result)
    (hchain : ChainUpTo SmartHops.options (Occurs ps) k st) (hk : 0 < k)
    (hes : ∀ te, Occurs ps (k + 1) te ↔ te ∈ es) (hext : Extends SmartHops.options st (k + 1) es chain')
    (hspin : chain' = spin x 1 (k + 1)) : Nested ps (k + 1) := by
  rw [spin_succ] at hspin
  cases hext with
  | @new te hnew =>
    have hlen := congrArg List.length hspin
    simp only [spin, List.length_append, List.length_map, List.length_range', List.length_singleton] at hlen
    omega
  | @known front best hknown hmin hfront hreaches =>
    obtain ⟨rfl, hbest⟩ := List.append_inj' hspin rfl
    obtain ⟨rfl, -⟩ := Prod.mk.inj (List.singleton_inj.mp hbest)
    -- nothing was deleted
    have hresult : spin best 1 k = st.result := by
      refine hchain.chain.eq_of_isPrefix hfront ?_
      rw [hchain.target, hopTarget_spin]
    have hocc : Occurs ps k best := by
      obtain ⟨j, rfl⟩ := Nat.exists_eq_succ_of_ne_zero hk.ne'
      have hlast := hchain.chain
      rw [← hresult, spin_succ, Nat.add_comm 1 j] at hlast
      exact (hopChain_concat.mp hlast).2.occurs
    intro j hj hlt te hte
    rcases Nat.lt_or_ge j k with hjk | hjk
    · exact h.spin_iff.mp hresult.symm j hj hjk te hte
    · obtain rfl : j = k := by omega
      have hmem := (hes te).mp hte
      have hle := hmin.le (List.mem_filter.mpr ⟨hmem, considers_options te⟩)
      obtain ⟨-, hle', hocc'⟩ := hchain.occurs_lastPosition (hknown te hmem (considers_options te))
      rw [HopState.lastPosition, hchain.lastPositions_of_occurs hk hocc, Option.getD_some] at hle
      rwa [show st.lastPosition te = j by omega] at hocc'

theorem SpinChain.eq_spin_succ {chain' : List ResultTuple} {accesses : List TraceEventTuple}
    (h : SpinChain ps x k st.result)
    (hchain : ChainUpTo SmartHops.options (Occurs ps) k st) (hk : 0 < k)
    (hes : ∀ te, Occurs ps (k + 1) te ↔ te ∈ x :: accesses)
    (hext : Extends SmartHops.options st (k + 1) (x :: accesses) chain') (hnested : Nested ps (k + 1)) :
    chain' = spin x 1 (k + 1) := by
  have hresult := h.spin_iff.mpr hnested.of_succ
  -- all events of the position have the same last position, so that the first one is chosen
  have hlast : ∀ te ∈ x :: accesses, st.lastPositions te = some k := fun te hte =>
    hchain.lastPositions_of_occurs hk (hnested k hk (Nat.lt_succ_self k) te ((hes te).mpr hte))
  have hlastPosition : ∀ te ∈ x :: accesses, st.lastPosition te = k := by
    intro te hte
    rw [HopState.lastPosition, hlast te hte, Option.getD_some]
  cases hext with
  | @new te hnew =>
    have hnone := hnew.new
    rw [hlast te hnew.mem] at hnone
    cases hnone
  | @known front best hknown hmin hfront hreaches =>
    have hmem := (List.mem_filter.mp hmin.mem).1
    rw [List.filter_cons_of_pos (considers_options x)] at hmin
    obtain rfl : best = x := by
      by_contra hne
      have hlt := hmin.lt_head hne
      rw [hlastPosition best hmem, hlastPosition x List.mem_cons_self] at hlt
      exact lt_irrefl k hlt
    rw [hlastPosition best hmem] at hreaches
    rw [hchain.chain.eq_of_isPrefix hfront (by rwa [hchain.target]), hresult, spin_succ, Nat.add_comm 1 k]

/-! ## A whole trace -/

theorem isAccess_of_occurs_one {accesses : List TraceEventTuple} (hps : ∀ es ∈ ps, TracePosition es)
    (hfirst : ps[0]? = some (x :: accesses)) (hocc : Occurs ps 1 te) (hne : te ≠ x) : IsAccess te := by
  obtain ⟨fetch, accesses', heq, -, haccesses⟩ := hps _ (List.mem_of_getElem? hfirst)
  obtain ⟨rfl, rfl⟩ := List.cons.inj heq
  exact haccesses te (List.mem_of_ne_of_mem hne ((occurs_succ hfirst).mp hocc))

theorem eq_fetch_of_occurs_one {accesses : List TraceEventTuple} (hps : ∀ es ∈ ps, TracePosition es)
    (hfirst : ps[0]? = some (x :: accesses)) (hocc : Occurs ps 1 te) (hte : te.2 = .none) : te = x := by
  by_contra hne
  have haccess := isAccess_of_occurs_one hps hfirst hocc hne
  simp [IsAccess, hte] at haccess

/-- **The chain behind every position.** -/
theorem hopStateAt_spinChain {accesses : List TraceEventTuple} (hps : ∀ es ∈ ps, TracePosition es)
    (hfirst : ps[0]? = some (x :: accesses)) (hk : 1 ≤ k) (hlt : k < 2 ^ 32) (hlen : k ≤ ps.length) :
    ∃ st, hopStateAt SmartHops.options ps k = some st ∧ ChainUpTo SmartHops.options (Occurs ps) k st ∧
      SpinChain ps x k st.result := by
  induction k, hk using Nat.le_induction with
  | base =>
    have hinit : hopStateAt SmartHops.options ps 0 = some {} := rfl
    obtain ⟨st, hst, hext, hchain⟩ := hopStateAt_succ rfl hps hlt hlen hinit chainUpTo_zero
    have hget : ps[0] = x :: accesses :=
      Option.some.inj ((List.getElem?_eq_getElem hlen).symm.trans hfirst)
    rw [hget] at hext
    exact ⟨st, hst, hchain, hext.eq_of_init ▸ spinChain_one ps x⟩
  | succ k hk ih =>
    obtain ⟨st, hst, hchain, hspin⟩ := ih (by omega) (by omega)
    obtain ⟨st', hst', hext, hchain'⟩ := hopStateAt_succ rfl hps hlt hlen hst hchain
    have hes : ∀ te, Occurs ps (k + 1) te ↔ te ∈ ps[k] := fun te =>
      occurs_succ (List.getElem?_eq_getElem hlen)
    refine ⟨st', hst', hchain', hspin.start_succ hchain hk hes hext,
      hspin.nested_succ hchain hk hes hext, fun hnested => ?_⟩
    obtain ⟨fetch, accesses', heq, hfetch, -⟩ := hps ps[k] (List.getElem_mem hlen)
    rw [heq] at hes hext
    -- the instruction of a nested position is that of the first position
    obtain rfl : fetch = x := eq_fetch_of_occurs_one hps hfirst
      (hnested.occurs_one le_rfl ((hes fetch).mpr List.mem_cons_self)) hfetch
    exact hspin.eq_spin_succ hchain hk hes hext hnested

end FailStar
