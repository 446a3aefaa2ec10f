import FailStar.SmartHops.Navigation

/-! # Forbidden hops

A hop to an event that also occurs where the hop begins is allowed only behind a hop to the same event:
"otherwise the debugger would stop for the event there". The hop calculator tests this where it deletes hops.
Where it appends a hop to the whole chain it does not, and the rule is broken by an instruction that is
repeated: the second fetch is appended to a chain that ends with a watchpoint at the first one.

* **`Forbidden`** — the rule, for two neighbours of a chain.
* **`RepeatBehindWatchpoint`** — all events of a position occurred at the position before, which was reached
  by an access and not by its fetch.
* **`forbidden_hops_iff`** — the chains obey the rule iff the trace has no such position. -/

namespace FailStar

variable {ps : List (List TraceEventTuple)} {es : List TraceEventTuple} {te : TraceEventTuple} {k n p : ℕ}
  {opts : HopOptions} {st st' : HopState}

instance (ps : List (List TraceEventTuple)) (p : ℕ) (te : TraceEventTuple) : Decidable (Occurs ps p te) :=
  decidable_of_iff (0 < p ∧ (ps[p - 1]?.any fun es => te ∈ es) = true) (by
    unfold Occurs
    cases ps[p - 1]? with
    | none => simp
    | some es => simp)

/-- **The rule for two neighbours** `(a, r)`, `(b, s)` of a chain is broken: the last occurrence of `b` before
`s` is at `r`, and `b` is not `a`. -/
def Forbidden (ps : List (List TraceEventTuple)) (x y : ResultTuple) : Prop :=
  Occurs ps x.2 y.1 ∧ (∀ q, x.2 < q → q < y.2 → ¬ Occurs ps q y.1) ∧ y.1 ≠ x.1

/-- The chain obeys the rule. -/
def ObeysRule (ps : List (List TraceEventTuple)) (chain : List ResultTuple) : Prop :=
  chain.IsChain fun x y => ¬ Forbidden ps x y

/-- The last position before `p` at which the event occurs; zero if there is none. -/
def lastBefore (ps : List (List TraceEventTuple)) (p : ℕ) (te : TraceEventTuple) : ℕ :=
  Nat.findGreatest (fun q => Occurs ps q te) (p - 1)

/-- **Position `k + 1` repeats position `k`**: it has no event that does not occur at `k`, and there one of the
accesses occurred less recently than the fetch. -/
def RepeatBehindWatchpoint (ps : List (List TraceEventTuple)) (k : ℕ) : Prop :=
  (∀ te ∈ (ps[k]?).getD [], te ∈ (ps[k - 1]?).getD []) ∧
    ∃ fetch ∈ ((ps[k - 1]?).getD []).head?, ∃ te ∈ ((ps[k - 1]?).getD []).tail,
      lastBefore ps k te < lastBefore ps k fetch

instance (ps : List (List TraceEventTuple)) (k : ℕ) : Decidable (RepeatBehindWatchpoint ps k) :=
  inferInstanceAs (Decidable (_ ∧ _))

/-! ## Last positions -/

theorem LastUpTo.getD_eq {o : Option ℕ} (h : LastUpTo (Occurs ps) k te o) :
    o.getD 0 = lastBefore ps (k + 1) te := by
  symm
  unfold lastBefore
  rw [Nat.add_sub_cancel, Nat.findGreatest_eq_iff]
  cases o with
  | none => exact ⟨Nat.zero_le k, fun hne => absurd rfl hne, fun q hq hle => h.absent q hq hle⟩
  | some q =>
    obtain ⟨-, hle, hocc⟩ := h.occurs q rfl
    exact ⟨hle, fun _ => hocc, fun r hr hle => h.absent r hr hle⟩

theorem considers_of_useWatchpoints (hopts : opts.useWatchpoints = true) (te : TraceEventTuple) :
    opts.considers te = true := by
  unfold HopOptions.considers
  rw [hopts]
  rfl

theorem filter_considers (hopts : opts.useWatchpoints = true) (es : List TraceEventTuple) :
    es.filter opts.considers = es :=
  List.filter_eq_self.mpr fun te _ => considers_of_useWatchpoints hopts te

theorem ChainUpTo.lastPosition_eq (h : ChainUpTo opts (Occurs ps) k st) (hopts : opts.useWatchpoints = true) :
    st.lastPosition = lastBefore ps (k + 1) := by
  funext te
  exact (h.last te (considers_of_useWatchpoints hopts te)).getD_eq

theorem ChainUpTo.lastPosition_le (h : ChainUpTo opts (Occurs ps) k st) (hopts : opts.useWatchpoints = true)
    (te : TraceEventTuple) : st.lastPosition te ≤ k := by
  have hlast := h.last te (considers_of_useWatchpoints hopts te)
  unfold HopState.lastPosition
  cases hpos : st.lastPositions te with
  | none => exact Nat.zero_le k
  | some q => exact (hlast.occurs q hpos).2.1

/-- The last position of an event is `k` iff the event occurs there. -/
theorem ChainUpTo.lastPosition_eq_iff (h : ChainUpTo opts (Occurs ps) k st) (hopts : opts.useWatchpoints = true)
    (hk : 0 < k) : st.lastPosition te = k ↔ Occurs ps k te := by
  have hlast := h.last te (considers_of_useWatchpoints hopts te)
  constructor
  · intro heq
    unfold HopState.lastPosition at heq
    cases hpos : st.lastPositions te with
    | none =>
      rw [hpos] at heq
      exact absurd heq hk.ne
    | some q =>
      rw [hpos, Option.getD_some] at heq
      rw [← heq]
      exact (hlast.occurs q hpos).2.2
  · intro hocc
    refine le_antisymm (h.lastPosition_le hopts te) ?_
    exact Nat.not_lt.mp fun hlt => hlast.absent k hlt le_rfl hocc

/-! ## The last hop of a chain -/

/-- **The chain ends with the event of the position that occurred least recently**, the first one of these. -/
def EndsWithOldest (ps : List (List TraceEventTuple)) (k : ℕ) (chain : List ResultTuple) : Prop :=
  ∃ front te, chain = front ++ [(te, k)] ∧
    FirstMin (lastBefore ps k) (2 ^ 32) ((ps[k - 1]?).getD []) te

theorem FirstNew.firstMin (h : FirstNew opts st es te) (hopts : opts.useWatchpoints = true)
    (hchain : ChainUpTo opts (Occurs ps) k st) : FirstMin st.lastPosition (2 ^ 32) es te := by
  have hzero : st.lastPosition te = 0 := by
    unfold HopState.lastPosition
    rw [h.new]
    rfl
  obtain ⟨front, back, rfl, hknown⟩ := h.split
  refine ⟨by rw [hzero]; decide, front, back, rfl, fun te' hte' => ?_, fun te' _ => ?_⟩
  · -- an event that occurred before has a positive last position
    have hconsiders := considers_of_useWatchpoints hopts te'
    obtain ⟨q, hq⟩ := Option.ne_none_iff_exists'.mp (hknown te' hte' hconsiders)
    rw [hzero]
    unfold HopState.lastPosition
    rw [hq]
    exact ((hchain.last te' hconsiders).occurs q hq).1
  · rw [hzero]
    exact Nat.zero_le _

/-! ## One position -/

theorem TracePosition.eq_head {fetch : TraceEventTuple} {accesses : List TraceEventTuple}
    (h : TracePosition (fetch :: accesses)) (hte : te ∈ fetch :: accesses) (hfetch : te.2 = .none) :
    te = fetch := by
  obtain ⟨fetch', accesses', heq, -, haccesses⟩ := h
  obtain ⟨rfl, rfl⟩ := List.cons.inj heq
  rcases List.mem_cons.mp hte with rfl | hte
  · rfl
  · rcases haccesses te hte with hread | hwrite
    · exact absurd (hfetch.symm.trans hread) (by decide)
    · exact absurd (hfetch.symm.trans hwrite) (by decide)

theorem TracePosition.exists_cons (h : TracePosition es) :
    ∃ fetch accesses, es = fetch :: accesses ∧ fetch.2 = .none := by
  obtain ⟨fetch, accesses, heq, hfetch, -⟩ := h
  exact ⟨fetch, accesses, heq, hfetch⟩

theorem FirstMin.eq_head {α : Type*} {costs : α → ℕ} {limit : ℕ} {x q : α} {xs : List α}
    (h : FirstMin costs limit (x :: xs) q) (hle : costs x ≤ costs q) : q = x := by
  by_contra hne
  exact absurd (h.lt_head hne) (Nat.not_lt.mpr hle)

/-- **What one position does to the chain.** -/
structure PositionStep (opts : HopOptions) (ps : List (List TraceEventTuple)) (k : ℕ) (st st' : HopState) :
    Prop where
  chain : ChainUpTo opts (Occurs ps) (k + 1) st'
  oldest : EndsWithOldest ps (k + 1) st'.result
  cases : (∃ te, FirstNew opts st ((ps[k]?).getD []) te ∧ st'.result = [(te, k + 1)]) ∨
    ∃ front back best, st'.result = front ++ [back] ++ [(best, k + 1)] ∧
      FirstMin st.lastPosition (2 ^ 32 - 1) ((ps[k]?).getD []) best ∧
      front ++ [back] <+: st.result ∧ st.lastPosition best ≤ back.2 ∧
      (front ++ [back] = st.result ∨ ¬ stopsAt opts (st.lastPosition best) best back = true)

/-- **The next position of a trace**, with watchpoints. -/
theorem hopStateAt_step (hwatch : opts.useWatchpoints = true) (hopts : opts.useCheckpoints = false)
    (hps : ∀ es ∈ ps, TracePosition es) (hk : k + 1 < 2 ^ 32) (hlen : k < ps.length)
    (hst : hopStateAt opts ps k = some st) (hchain : ChainUpTo opts (Occurs ps) k st) :
    ∃ st', hopStateAt opts ps (k + 1) = some st' ∧ PositionStep opts ps k st st' := by
  have hget : ps[k]? = some ps[k] := List.getElem?_eq_getElem hlen
  obtain ⟨fetch, accesses, hes, hfetch⟩ := (hps ps[k] (List.getElem_mem _)).exists_cons
  obtain ⟨st₁, hst₁, -, hchain₁⟩ := hopStateAt_succ hopts hps hk hlen hst hchain
  obtain ⟨st₂, hst₂, -, hcases⟩ := processPosition_cases hchain hopts hk (fun te => occurs_succ hget)
    ⟨fetch, hes ▸ List.mem_cons_self, considers_of_useWatchpoints hwatch fetch⟩
  -- the two descriptions are about the same state
  have heq : st₂ = st₁ := by
    rw [hopStateAt, hst, Option.bind_some, hget, Option.bind_some, hst₂] at hst₁
    exact Option.some.inj hst₁
  subst heq
  refine ⟨st₂, hst₁, hchain₁, ?_, ?_⟩
  · unfold EndsWithOldest
    rw [Nat.add_sub_cancel, hget, Option.getD_some, ← hchain.lastPosition_eq hwatch]
    rcases hcases with ⟨te, hnew, hresult⟩ | ⟨front, back, best, hresult, -, hmin, -⟩
    · exact ⟨[], te, hresult, hnew.firstMin hwatch hchain⟩
    · rw [filter_considers hwatch] at hmin
      exact ⟨front ++ [back], best, hresult, hmin.lt_limit.trans (by decide), hmin.split⟩
  · rw [hget, Option.getD_some]
    rcases hcases with hnew | ⟨front, back, best, hresult, -, hmin, hfront, hback, -, hpassed⟩
    · exact .inl hnew
    · rw [filter_considers hwatch] at hmin
      exact .inr ⟨front, back, best, hresult, hmin, hfront, hback, hpassed⟩

theorem getD_eq_cons (hps : ∀ es ∈ ps, TracePosition es) (hlen : k < ps.length) :
    ∃ fetch accesses, (ps[k]?).getD [] = fetch :: accesses ∧ fetch.2 = .none ∧
      TracePosition (fetch :: accesses) := by
  have hpos := hps ps[k] (List.getElem_mem _)
  obtain ⟨fetch, accesses, hes, hfetch⟩ := hpos.exists_cons
  refine ⟨fetch, accesses, ?_, hfetch, hes ▸ hpos⟩
  rw [List.getElem?_eq_getElem hlen, Option.getD_some, hes]

theorem occurs_iff_mem (hk : 0 < k) : Occurs ps k te ↔ te ∈ (ps[k - 1]?).getD [] := by
  unfold Occurs
  cases ps[k - 1]? with
  | none => simp
  | some es => simp [hk]

/-- **A hop that is appended** to a chain that ends at position `k` breaks the rule only if position `k + 1`
repeats position `k`. -/
theorem repeat_of_forbidden (hwatch : opts.useWatchpoints = true) (hps : ∀ es ∈ ps, TracePosition es)
    (hlen : k < ps.length) (hk : 0 < k) (hchain : ChainUpTo opts (Occurs ps) k st)
    (hends : EndsWithOldest ps k st.result) {front : List ResultTuple} {back : ResultTuple}
    {best : TraceEventTuple} (hmin : FirstMin st.lastPosition (2 ^ 32 - 1) ((ps[k]?).getD []) best)
    (hresult : front ++ [back] = st.result) (hforbidden : Forbidden ps back (best, k + 1)) :
    RepeatBehindWatchpoint ps k := by
  obtain ⟨hocc, -, hne⟩ := hforbidden
  obtain ⟨front', te, hlast, holdest⟩ := hends
  obtain ⟨-, hback⟩ := List.append_inj' (hresult.trans hlast) rfl
  obtain rfl : back = (te, k) := (List.cons.inj hback).1
  obtain ⟨fetch, accesses, hes, hfetch, -⟩ := getD_eq_cons hps hlen
  obtain ⟨fetch', accesses', hes', -, hposition'⟩ := getD_eq_cons hps (Nat.lt_of_le_of_lt (Nat.sub_le k 1) hlen)
  have hbest : st.lastPosition best = k := (hchain.lastPosition_eq_iff hwatch hk).mpr hocc
  unfold RepeatBehindWatchpoint
  rw [hes] at hmin ⊢
  rw [hes'] at holdest ⊢
  constructor
  · -- no event of the position is older than `best`
    intro te' hte'
    rw [← hes', ← occurs_iff_mem hk, ← hchain.lastPosition_eq_iff hwatch hk]
    exact le_antisymm (hchain.lastPosition_le hwatch te') (hbest ▸ hmin.le hte')
  · -- so that `best` is the fetch, which is the one of position `k`
    have hbestFetch : best = fetch := hmin.eq_head (hbest ▸ hchain.lastPosition_le hwatch fetch)
    have hbestMem : best ∈ fetch' :: accesses' := by
      rw [← hes', ← occurs_iff_mem hk]
      exact hocc
    have hbestFetch' : best = fetch' := hposition'.eq_head hbestMem (hbestFetch ▸ hfetch)
    have hte : te ≠ fetch' := fun heq => hne (hbestFetch'.trans heq.symm)
    refine ⟨fetch', rfl, te, ?_, holdest.lt_head hte⟩
    exact (List.mem_cons.mp holdest.mem).resolve_left hte

/-- **At a position that repeats the one before the rule is broken.** -/
theorem forbidden_of_repeat (hwatch : opts.useWatchpoints = true) (hps : ∀ es ∈ ps, TracePosition es)
    (hlen : k < ps.length) (hk : 0 < k) (hchain : ChainUpTo opts (Occurs ps) k st)
    (hends : EndsWithOldest ps k st.result) (hstep : PositionStep opts ps k st st')
    (hrepeat : RepeatBehindWatchpoint ps k) : ¬ ObeysRule ps st'.result := by
  obtain ⟨front', te, hlast, holdest⟩ := hends
  obtain ⟨fetch, accesses, hes, hfetch, -⟩ := getD_eq_cons hps hlen
  obtain ⟨fetch', accesses', hes', -, hposition'⟩ := getD_eq_cons hps (Nat.lt_of_le_of_lt (Nat.sub_le k 1) hlen)
  obtain ⟨hsubset, fetch'', hfetch'', older, holder, hlt⟩ := hrepeat
  have hknown : ∀ te' ∈ fetch :: accesses, st.lastPosition te' = k := by
    intro te' hte'
    rw [hchain.lastPosition_eq_iff hwatch hk, occurs_iff_mem hk]
    exact hsubset te' (hes ▸ hte')
  rcases hstep.cases with ⟨new, hnew, -⟩ | ⟨front, back, best, hresult, hmin, hfront, hback, -⟩
  · -- there is no new event
    have hzero : st.lastPosition new = 0 := by
      unfold HopState.lastPosition
      rw [hnew.new]
      rfl
    rw [hknown new (hes ▸ hnew.mem)] at hzero
    exact absurd hzero hk.ne'
  · rw [hes] at hmin
    -- the fetch is chosen, and nothing is deleted
    have hbest : best = fetch :=
      hmin.eq_head (by rw [hknown fetch List.mem_cons_self, hknown best hmin.mem])
    have hwhole : front ++ [back] = st.result := by
      refine hchain.chain.eq_of_isPrefix hfront ?_
      rw [hchain.target, hopTarget_concat, ← hknown best hmin.mem]
      exact hback
    obtain ⟨-, hbackeq⟩ := List.append_inj' (hwhole.trans hlast) rfl
    obtain rfl : back = (te, k) := (List.cons.inj hbackeq).1
    -- the chain ends with an access
    rw [hes'] at hfetch'' holder holdest
    obtain rfl : fetch' = fetch'' := Option.some.inj hfetch''
    have hte : te ≠ fetch' := by
      rintro rfl
      exact absurd hlt (Nat.not_lt.mpr (holdest.le (List.mem_cons_of_mem _ holder)))
    have hoccBest : Occurs ps k best := (hchain.lastPosition_eq_iff hwatch hk).mp (hknown best hmin.mem)
    have hbest' : best = fetch' := by
      refine hposition'.eq_head ?_ (hbest ▸ hfetch)
      rw [← hes', ← occurs_iff_mem hk]
      exact hoccBest
    intro hobeys
    unfold ObeysRule at hobeys
    rw [hresult] at hobeys
    refine (List.isChain_append.mp hobeys).2.2 (te, k) (by simp) (best, k + 1) (by simp) ⟨hoccBest, ?_, ?_⟩
    · intro q hq hq'
      simp only at hq hq'
      omega
    · exact fun heq => hte (heq.symm.trans hbest')

/-- **Otherwise the rule is kept.** -/
theorem obeys_of_not_repeat (hwatch : opts.useWatchpoints = true) (hps : ∀ es ∈ ps, TracePosition es)
    (hlen : k < ps.length) (hchain : ChainUpTo opts (Occurs ps) k st)
    (hends : 0 < k → EndsWithOldest ps k st.result) (hstep : PositionStep opts ps k st st')
    (hobeys : ObeysRule ps st.result) (hrepeat : 0 < k → ¬ RepeatBehindWatchpoint ps k) :
    ObeysRule ps st'.result := by
  rcases hstep.cases with ⟨new, -, hresult⟩ | ⟨front, back, best, hresult, hmin, hfront, hback, hpassed⟩
  · unfold ObeysRule
    rw [hresult]
    exact List.isChain_singleton _
  · obtain ⟨rest, hrest⟩ := hfront
    unfold ObeysRule at hobeys ⊢
    rw [hresult]
    rw [← hrest] at hobeys
    refine List.isChain_append.mpr ⟨(List.isChain_append.mp hobeys).1, List.isChain_singleton _, ?_⟩
    intro x hx y hy hforbidden
    obtain rfl : back = x := by simpa using hx
    obtain rfl : (best, k + 1) = y := by simpa using hy
    rcases hpassed with hwhole | hpassed
    · have hk : 0 < k := by
        rw [← hchain.target, ← hwhole, hopTarget_concat]
        exact hforbidden.1.1
      exact hrepeat hk (repeat_of_forbidden hwatch hps hlen hk hchain (hends hk) hmin hwhole hforbidden)
    · -- the deletion loop tests the rule
      have hle : back.2 ≤ k := by
        have hall := hchain.chain
        rw [← hrest] at hall
        have htarget := hall.of_append.2
        rwa [hrest, hchain.target, hopTarget_concat] at htarget
      have hlast := hchain.last best (considers_of_useWatchpoints hwatch best)
      have heq : st.lastPosition best = back.2 :=
        le_antisymm hback (Nat.not_lt.mp fun hlt => hlast.absent back.2 hlt hle hforbidden.1)
      refine hpassed ?_
      unfold stopsAt
      rw [Bool.or_eq_true, Bool.and_eq_true, decide_eq_true_eq, decide_eq_true_eq]
      exact .inr ⟨heq, fun hsame => hforbidden.2.2 hsame.symm⟩

/-! ## A whole trace -/

/-- **The chains up to position `n` obey the rule** iff no position repeats the one before it behind a
watchpoint. -/
theorem hopStateAt_obeysRule_iff (opts : HopOptions) (hwatch : opts.useWatchpoints = true)
    (hopts : opts.useCheckpoints = false)
    (hps : ∀ es ∈ ps, TracePosition es) (hn : n < 2 ^ 32) (hlen : n ≤ ps.length) :
    (∀ p ≤ n, ∀ st, hopStateAt opts ps p = some st → ObeysRule ps st.result) ↔
      ∀ k, 0 < k → k < n → ¬ RepeatBehindWatchpoint ps k := by
  have hends : ∀ k ≤ n, 0 < k → ∀ st, hopStateAt opts ps k = some st → EndsWithOldest ps k st.result := by
    intro k hkn hk st hst
    obtain ⟨k, rfl⟩ := Nat.exists_eq_succ_of_ne_zero hk.ne'
    obtain ⟨st₀, hst₀, hchain₀⟩ := hopStateAt_chainUpTo opts (k := k) hopts hps (by omega) (by omega)
    obtain ⟨st', hst', hstep⟩ := hopStateAt_step hwatch hopts hps (by omega) (by omega) hst₀ hchain₀
    obtain rfl : st' = st := Option.some.inj (hst'.symm.trans hst)
    exact hstep.oldest
  constructor
  · intro hall k hk hkn hrepeat
    obtain ⟨st, hst, hchain⟩ := hopStateAt_chainUpTo opts (k := k) hopts hps (by omega) (by omega)
    obtain ⟨st', hst', hstep⟩ := hopStateAt_step hwatch hopts hps (by omega) (by omega) hst hchain
    exact forbidden_of_repeat hwatch hps (by omega) hk hchain (hends k hkn.le hk st hst) hstep hrepeat
      (hall (k + 1) hkn st' hst')
  · intro hnone p hpn
    -- by induction on the position: only the hop to the position itself is new
    induction p with
    | zero =>
      intro st hst
      obtain rfl : {} = st := Option.some.inj hst
      exact List.isChain_nil
    | succ k ih =>
      intro st' hst'
      obtain ⟨st, hst, hchain⟩ := hopStateAt_chainUpTo opts (k := k) hopts hps (by omega) (by omega)
      obtain ⟨st'', hst'', hstep⟩ := hopStateAt_step hwatch hopts hps (by omega) (by omega) hst hchain
      obtain rfl : st'' = st' := Option.some.inj (hst''.symm.trans hst')
      exact obeys_of_not_repeat hwatch hps (by omega) hchain (fun hk => hends k (by omega) hk st hst) hstep
        (ih (by omega) st hst) fun hk => hnone k hk (by omega)

/-- **Forbidden hops.** For every trace, the chains `SmartHops::calculateFollowingHop` computes for the
positions up to `n`, after any ascending sequence of calls, obey the rule iff no position up to `n` repeats
the one before it behind a watchpoint; and so do the chains of `SmartAlgorithm::calculateAllHops` with
watchpoints on and checkpoints off, with or without weights. -/
theorem forbidden_hops_iff (w : ℕ) (events : List TraceEvent) (n : ℕ)
    (hlen : n ≤ (positions w events).length) (hn : n < 2 ^ 32) :
    ((∀ p, 0 < p → p ≤ n → ∀ offsets : List ℕ, (offsets ++ [p]).Pairwise (· ≤ ·) →
        ∃ ips sh, SmartHops.calculateHops w (SmartHops.init events) (offsets ++ [p]) = some (ips, sh) ∧
          ObeysRule (positions w events) sh.state.result) ↔
      ∀ k, 0 < k → k < n → ¬ RepeatBehindWatchpoint (positions w events) k) ∧
    ∀ (opts : HopOptions) (numInst : ℕ), opts.useWatchpoints = true → opts.useCheckpoints = false →
      (numInst = 0 ∨ n ≤ numInst) →
      ((∀ p, 0 < p → p ≤ n → ∃ chain costs,
        (calculateAllHops w opts (.openTraceFile events numInst)).1[p - 1]? = some (chain, costs) ∧
          ObeysRule (positions w events) chain) ↔
        ∀ k, 0 < k → k < n → ¬ RepeatBehindWatchpoint (positions w events) k) := by
  have hps := tracePosition_of_mem w events
  have hstate : ∀ (opts : HopOptions), opts.useCheckpoints = false → ∀ p ≤ n,
      ∃ st, hopStateAt opts (positions w events) p = some st := by
    intro opts hopts p hpn
    obtain ⟨st, hst, -⟩ := hopStateAt_chainUpTo opts hopts hps (hpn.trans_lt hn) (hpn.trans hlen)
    exact ⟨st, hst⟩
  have hzero : ∀ (opts : HopOptions) st, hopStateAt opts (positions w events) 0 = some st →
      ObeysRule (positions w events) st.result := by
    intro opts st hst
    obtain rfl : {} = st := Option.some.inj hst
    exact List.isChain_nil
  constructor
  · rw [← hopStateAt_obeysRule_iff SmartHops.options rfl rfl hps hn hlen]
    constructor
    · intro hall p hpn st hst
      rcases Nat.eq_zero_or_pos p with rfl | hp
      · exact hzero SmartHops.options st hst
      · -- a single call shows the chain
        obtain ⟨ips, sh, hcalls, hobeys⟩ := hall p hp hpn [] (List.pairwise_singleton _ _)
        obtain ⟨ips', -, sh', hcalls', -, -, hat⟩ := SmartHops.calculateHops_concat
          (List.pairwise_singleton (· ≤ ·) p : ([] ++ [p]).Pairwise (· ≤ ·)) (hpn.trans hlen)
          (hpn.trans_lt hn)
        obtain ⟨-, rfl⟩ := Prod.mk.inj (Option.some.inj (hcalls.symm.trans hcalls'))
        obtain rfl : sh.state = st := Option.some.inj (hat.state.symm.trans hst)
        exact hobeys
    · intro hall p hp hpn offsets hsorted
      obtain ⟨ips, -, sh, hcalls, -, -, hat⟩ :=
        SmartHops.calculateHops_concat hsorted (hpn.trans hlen) (hpn.trans_lt hn)
      exact ⟨ips, sh, hcalls, hall p hpn sh.state hat.state⟩
  · intro opts numInst hwatch hopts hnum
    rw [← hopStateAt_obeysRule_iff opts hwatch hopts hps hn hlen]
    have hresult : ∀ p, 0 < p → p ≤ n → ∀ st, hopStateAt opts (positions w events) p = some st →
        (calculateAllHops w opts (.openTraceFile events numInst)).1[p - 1]? = some (st.result, st.costs) := by
      intro p hp hpn st hst
      exact calculateAllHops_of_hopStateAt hp (hpn.trans hlen) (hpn.trans_lt hn)
        (hnum.imp_right hpn.trans) hst
    constructor
    · intro hall p hpn st hst
      rcases Nat.eq_zero_or_pos p with rfl | hp
      · exact hzero opts st hst
      · obtain ⟨chain, costs, hget, hobeys⟩ := hall p hp hpn
        obtain ⟨rfl, -⟩ := Prod.mk.inj (Option.some.inj ((hresult p hp hpn st hst).symm.trans hget))
        exact hobeys
    · intro hall p hp hpn
      obtain ⟨st, hst⟩ := hstate opts hopts p hpn
      exact ⟨st.result, st.costs, hresult p hp hpn st hst, hall p hpn st hst⟩

/-- The chains of a loop obey the rule. -/
theorem forbidden_hops_iff_loopTrace : 4 ≤ (positions 32 loopTrace).length ∧ 4 < 2 ^ 32 ∧
    ∃ ips sh, SmartHops.calculateHops 32 (SmartHops.init loopTrace) [1, 4] = some (ips, sh) ∧
      ObeysRule (positions 32 loopTrace) sh.state.result := by
  refine ⟨by decide, by decide, ?_⟩
  refine (forbidden_hops_iff 32 loopTrace 4 (by decide) (by decide)).1.mpr ?_ 4 (by decide) le_rfl [1]
    (by decide)
  intro k hk hk4
  have hcases : k = 1 ∨ k = 2 ∨ k = 3 := by omega
  rcases hcases with rfl | rfl | rfl <;> decide

/-- One instruction, executed three times; the second time it reads a byte. -/
def repeatTrace : List TraceEvent :=
  [{ ip := 10 }, { ip := 10 }, { ip := 10, memaddr := some 100, width := some 1, accesstype := some .read },
    { ip := 10 }]

/-- **The chain for position 3 waits for the read at position 2 and then for the fetch**, which occurs at
position 2 as well. -/
theorem repeated_fetch_is_forbidden :
    (∃ ips sh, SmartHops.calculateHops 32 (SmartHops.init repeatTrace) [3] = some (ips, sh) ∧
      sh.state.result = [((100, .read), 2), ((10, .none), 3)] ∧
      ¬ ObeysRule (positions 32 repeatTrace) sh.state.result) ∧
    ∀ useWeights, ∃ chain costs,
      (calculateAllHops 32 { useWeights } (.openTraceFile repeatTrace)).1[2]? = some (chain, costs) ∧
      ¬ ObeysRule (positions 32 repeatTrace) chain := by
  have hnot : ¬ ObeysRule (positions 32 repeatTrace) [((100, .read), 2), ((10, .none), 3)] := by
    intro h
    refine (List.isChain_cons_cons.mp h).1 ⟨by decide, fun q hq hq' => ?_, by decide⟩
    simp only at hq hq'
    omega
  constructor
  · have hrun : (SmartHops.calculateHops 32 (SmartHops.init repeatTrace) [3]).map (fun r => r.2.state.result) =
        some [((100, .read), 2), ((10, .none), 3)] := by decide +kernel
    obtain ⟨⟨ips, sh⟩, hcalls, hresult⟩ := Option.map_eq_some_iff.mp hrun
    refine ⟨ips, sh, hcalls, hresult, ?_⟩
    show ¬ ObeysRule _ sh.state.result
    rw [show sh.state.result = _ from hresult]
    exact hnot
  · intro useWeights
    refine ⟨[((100, .read), 2), ((10, .none), 3)], 2, ?_, hnot⟩
    cases useWeights <;> decide +kernel

end FailStar
