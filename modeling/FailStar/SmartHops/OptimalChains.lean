import FailStar.SmartHops.Costs

/-! # Optimal breakpoint chains

With watchpoints and checkpoints off, the hop calculator keeps a single chain of breakpoints, and deletes hops
only from its end. Nevertheless there is no better chain: with weights off none has fewer hops, and with weights
on none is cheaper.

* **`BreakpointChain`** — a chain of breakpoints that leads to a position.
* **`hopStateAt_cheapest`** — the chain is cheapest in all its front parts, for the costs the options ask for.
* **`OptimalChain`**, **`breakpoint_chains_optimal_iff`** — the chain is optimal, and with weights on the emitted
  costs are the minimum if it fits into an `unsigned int`. -/

namespace FailStar

/-- **A chain of breakpoints to position `p`.** -/
def BreakpointChain (ps : List (List TraceEventTuple)) (chain : List ResultTuple) (p : ℕ) : Prop :=
  LeadsTo ps chain p ∧ ∀ hop ∈ chain, hop.1.2 = .none

/-- There is no better chain of breakpoints to position `p`. -/
structure OptimalChain (opts : HopOptions) (ps : List (List TraceEventTuple)) (p : ℕ)
    (chain : List ResultTuple) :
    Prop where
  leads : BreakpointChain ps chain p
  fewest : opts.useWeights = false → ∀ other, BreakpointChain ps other p → chain.length ≤ other.length
  cheapest : opts.useWeights = true → ∀ other, BreakpointChain ps other p →
    chainCosts opts chain ≤ chainCosts opts other

/-- The breakpoint at `te` stops at position `p`. -/
def BreakpointAt (ps : List (List TraceEventTuple)) (p : ℕ) (te : TraceEventTuple) : Prop :=
  Occurs ps p te ∧ te.2 = .none

/-- The costs of a hop, as far as they matter. -/
def HopOptions.stepCosts (opts : HopOptions) (prev te : TraceEventTuple) : ℕ :=
  if opts.useWeights then hopCosts prev te else 1

variable {opts : HopOptions} {ps : List (List TraceEventTuple)} {st : HopState} {k p : ℕ}
    {chain : List ResultTuple}

/-! ## Breakpoints -/

theorem BreakpointAt.unique (hps : ∀ es ∈ ps, TracePosition es) {te te' : TraceEventTuple}
    (h : BreakpointAt ps p te) (h' : BreakpointAt ps p te') : te = te' := by
  obtain ⟨⟨-, es, hes, hmem⟩, hte⟩ := h
  obtain ⟨⟨-, es', hes', hmem'⟩, hte'⟩ := h'
  obtain rfl := Option.some.inj (hes.symm.trans hes')
  obtain ⟨fetch, accesses, rfl, -, haccesses⟩ := hps es (List.mem_of_getElem? hes)
  have hfetch : ∀ te ∈ fetch :: accesses, te.2 = .none → te = fetch := by
    intro te hmem hte
    rcases List.mem_cons.mp hmem with rfl | hmem
    · rfl
    · rcases haccesses te hmem with hacc | hacc <;> simp [hacc] at hte
  rw [hfetch te hmem hte, hfetch te' hmem' hte']

theorem hopChain_breakpointAt {q : ℕ} : HopChain (BreakpointAt ps) q chain ↔
    HopChain (Occurs ps) q chain ∧ ∀ hop ∈ chain, hop.1.2 = .none := by
  induction chain generalizing q with
  | nil => simp [HopChain]
  | cons hop chain ih =>
    obtain ⟨te, p⟩ := hop
    rw [HopChain, HopChain, ih, List.forall_mem_cons]
    constructor
    · rintro ⟨⟨hlt, ⟨hocc, hte⟩, habsent⟩, hchain, hall⟩
      exact ⟨⟨⟨hlt, hocc, fun r hr hr' hocc' => habsent r hr hr' ⟨hocc', hte⟩⟩, hchain⟩, hte, hall⟩
    · rintro ⟨⟨⟨hlt, hocc, habsent⟩, hchain⟩, hte, hall⟩
      exact ⟨⟨hlt, ⟨hocc, hte⟩, fun r hr hr' hocc' => habsent r hr hr' hocc'.1⟩, hchain, hall⟩

theorem hopTarget_of_getLast? (h : chain.getLast?.map Prod.snd = some p) : hopTarget 0 chain = p := by
  obtain ⟨hop, hlast, rfl⟩ := Option.map_eq_some_iff.mp h
  obtain ⟨front, rfl⟩ := List.getLast?_eq_some_iff.mp hlast
  rw [hopTarget_concat]

theorem BreakpointChain.hopChain (h : BreakpointChain ps chain p) :
    HopChain (BreakpointAt ps) 0 chain ∧ hopTarget 0 chain = p :=
  ⟨hopChain_breakpointAt.mpr ⟨h.1.1, h.2⟩, hopTarget_of_getLast? h.1.2⟩

theorem ChainUpTo.breakpointChain (h : ChainUpTo opts (Occurs ps) k st) (hwatch : opts.useWatchpoints = false)
    (hk : 0 < k) : BreakpointChain ps st.result k :=
  ⟨(h.leadsTo hk).1, fun hop hhop => by simpa [HopOptions.considers, hwatch] using (h.events hop hhop).1⟩

theorem LastUpTo.breakpointAt {te : TraceEventTuple} {o : Option ℕ} (h : LastUpTo (Occurs ps) k te o)
    (hte : te.2 = .none) : LastUpTo (BreakpointAt ps) k te o := by
  refine ⟨fun q hq => ?_, fun r hr hr' hocc => h.absent r hr hr' hocc.1⟩
  obtain ⟨hpos, hle, hocc⟩ := h.occurs q hq
  exact ⟨hpos, hle, hocc, hte⟩

/-! ## One position -/

/-- The costs the options ask for. -/
abbrev Cheapest (opts : HopOptions) (ps : List (List TraceEventTuple)) (k : ℕ) (chain : List ResultTuple) :
    Prop :=
  CheapestUpTo (BreakpointAt ps) (fun _ => costChange) opts.stepCosts k chain

theorem stepCosts_of_weights (h : opts.useWeights = true) : opts.stepCosts = hopCosts := by
  funext a b
  rw [HopOptions.stepCosts, if_pos h]

theorem hopCosts_eq_changeCost : hopCosts = changeCost costChange := rfl

theorem stepCosts_of_no_weights (h : opts.useWeights = false) : opts.stepCosts = fun _ _ => 1 := by
  funext a b
  rw [HopOptions.stepCosts, h, if_neg Bool.false_ne_true]

theorem HopState.lastPositions_eq {te : TraceEventTuple} (h : st.lastPositions te ≠ none) :
    st.lastPositions te = some (st.lastPosition te) := by
  obtain ⟨pos, hpos⟩ := Option.ne_none_iff_exists'.mp h
  rw [HopState.lastPosition, hpos, Option.getD_some]

/-- With weights, the deletion loop stops at the last position at which the event occurred, or before it. -/
theorem stopsAt_of_weights (hw : opts.useWeights = true) {prev : ℕ} {best : TraceEventTuple}
    {hop : ResultTuple} :
    stopsAt opts prev best hop = true ↔ hop.2 ≤ prev := by
  simp only [stopsAt, hw, Bool.not_true, Bool.false_and, Bool.true_and, Bool.false_or, Bool.or_eq_true,
    Bool.not_eq_true', decide_eq_false_iff_not, Bool.and_eq_true, decide_eq_true_eq]
  omega

/-- Without weights, it stops before that position, or at another event there. -/
theorem stopsAt_of_no_weights (hw : opts.useWeights = false) {prev : ℕ} {best : TraceEventTuple}
    {hop : ResultTuple} :
    stopsAt opts prev best hop = true ↔ hop.2 < prev ∨ prev = hop.2 ∧ hop.1 ≠ best := by
  simp only [stopsAt, hw, Bool.not_false, Bool.true_and, Bool.false_and, Bool.or_false, Bool.or_eq_true,
    Bool.not_eq_true', decide_eq_false_iff_not, Bool.and_eq_true, decide_eq_true_eq, not_le]

/-- **What the deletion loop leaves is best**: the front part it stops at, and one more hop. -/
theorem Cheapest.extend {front rest : List ResultTuple} {back : ResultTuple} {best : TraceEventTuple} {prev : ℕ}
    (hone : ∀ p te te', BreakpointAt ps p te → BreakpointAt ps p te' → te = te')
    (h : Cheapest opts ps k (front ++ back :: rest))
    (hchain : HopChain (BreakpointAt ps) 0 (front ++ back :: rest))
    (htarget : hopTarget 0 (front ++ back :: rest) = k) (hlast : LastUpTo (BreakpointAt ps) k best (some prev))
    (hbest : BreakpointAt ps (k + 1) best)
    (hstops : ∀ hop ∈ front.getLast?, stopsAt opts prev best hop = true)
    (hpassed : rest = [] ∨ ¬ stopsAt opts prev best back = true) :
    Cheapest opts ps (k + 1) (front ++ [back] ++ [(best, k + 1)]) := by
  obtain ⟨hprev, -, hprevBest⟩ := hlast.occurs prev rfl
  have hfront := hchain.of_append.1
  cases hw : opts.useWeights with
  | false =>
    unfold Cheapest at h ⊢
    rw [stepCosts_of_no_weights hw] at h ⊢
    refine h.extend_count hone hlast hbest htarget ?_
    rcases List.eq_nil_or_concat' front with rfl | ⟨front, hop, rfl⟩
    · exact hprev
    · rw [hopTarget_concat]
      rcases (stopsAt_of_no_weights hw).mp (hstops hop (by simp)) with hlt | ⟨heq, hne⟩
      · exact hlt
      · -- at the position of its last occurrence, there is no other breakpoint
        rw [heq] at hprevBest
        exact absurd (hone hop.2 hop.1 best (occ_of_hopChain_concat hfront) hprevBest) hne
  | true =>
    unfold Cheapest at h ⊢
    rw [stepCosts_of_weights hw, hopCosts_eq_changeCost] at h ⊢
    refine h.extend_change hone hlast hbest hchain htarget ?_ (hpassed.imp_right fun hpass => ?_)
    · rcases List.eq_nil_or_concat' front with rfl | ⟨front, hop, rfl⟩
      · exact hprev.le
      · rw [hopTarget_concat]
        exact (stopsAt_of_weights hw).mp (hstops hop (by simp))
    · rw [stopsAt_of_weights hw] at hpass
      exact Nat.not_le.mp hpass

theorem chainCosts_of_breakpoints (h : ∀ hop ∈ chain, hop.1.2 = .none) :
    chainCosts opts chain = chainCost (fun _ => costChange) hopCosts chain := by
  cases chain with
  | nil => rfl
  | cons hop chain =>
    have hfirst : opts.firstCosts hop.1 = costChange := by
      rw [HopOptions.firstCosts, h hop List.mem_cons_self, if_neg (by decide)]
    rw [chainCosts, chainCost, hfirst, chainCost]

/-! ## A whole trace -/

section Trace

variable (hopts : opts.useCheckpoints = false) (hwatch : opts.useWatchpoints = false)
  (hps : ∀ es ∈ ps, TracePosition es)

include hopts hwatch hps

/-- **The chain is cheapest in all its front parts**, behind every position. -/
theorem hopStateAt_cheapest (hk : k < 2 ^ 32) (hlen : k ≤ ps.length) :
    ∃ st, hopStateAt opts ps k = some st ∧ ChainUpTo opts (Occurs ps) k st ∧ Cheapest opts ps k st.result := by
  induction k with
  | zero =>
    refine ⟨{}, rfl, chainUpTo_zero, ?_⟩
    intro front x back hsplit
    simp at hsplit
  | succ k ih =>
    obtain ⟨st, hst, hchain, hcheapest⟩ := ih (by omega) (by omega)
    obtain ⟨st', hst', -, hchain'⟩ := hopStateAt_succ hopts hps hk hlen hst hchain
    have hget : ps[k]? = some ps[k] := List.getElem?_eq_getElem hlen
    obtain ⟨fetch, accesses, hes, hfetch, -⟩ := hps ps[k] (List.getElem_mem _)
    obtain ⟨st₁, hst₁, -, hcases⟩ := processPosition_cases hchain hopts hk (fun te => occurs_succ hget)
      ⟨fetch, hes ▸ List.mem_cons_self, by simp [HopOptions.considers, hfetch]⟩
    obtain rfl : st₁ = st' := by
      rw [hopStateAt, hst, Option.bind_some, hget, Option.bind_some, hst₁] at hst'
      exact Option.some.inj hst'
    refine ⟨st₁, hst', hchain', ?_⟩
    rcases hcases with ⟨te, -, hresult⟩ | ⟨front, back, best, hresult, hknown, hmin, hfront, -, hstops, hpassed⟩
    · -- no chain is cheaper than a single hop
      rw [hresult]
      exact cheapestUpTo_singleton fun _ => le_rfl
    · obtain ⟨hmem, hconsiders⟩ := List.mem_filter.mp hmin.mem
      have hbest : best.2 = .none := by simpa [HopOptions.considers, hwatch] using hconsiders
      have hlast := (hchain.last best hconsiders).breakpointAt hbest
      rw [HopState.lastPositions_eq (hknown best hmem hconsiders)] at hlast
      have hbp : BreakpointAt ps (k + 1) best := ⟨(occurs_succ hget).mpr hmem, hbest⟩
      have hplain : ∀ hop ∈ st.result, hop.1.2 = .none := fun hop hhop => by
        simpa [HopOptions.considers, hwatch] using (hchain.events hop hhop).1
      have hhops := hopChain_breakpointAt.mpr ⟨hchain.chain, hplain⟩
      have htarget := hchain.target
      -- the loop has deleted `rest`, down to the hop behind the one it stopped at
      obtain ⟨rest, hrest⟩ := hfront
      rw [hresult]
      rw [← hrest, List.append_assoc, List.singleton_append] at hcheapest hhops htarget
      refine Cheapest.extend
        (fun p te te' => BreakpointAt.unique hps) hcheapest hhops htarget hlast hbp hstops ?_
      refine hpassed.imp_left fun hall => ?_
      rw [← hrest] at hall
      simpa using hall

/-- **The chain is optimal** behind every position. -/
theorem hopStateAt_optimal (hpos : 0 < k) (hk : k < 2 ^ 32) (hlen : k ≤ ps.length) :
    ∃ st, hopStateAt opts ps k = some st ∧ OptimalChain opts ps k st.result ∧
      st.costs = chainCosts opts st.result % 2 ^ 32 := by
  obtain ⟨st, hst, hchain, hcheapest⟩ := hopStateAt_cheapest hopts hwatch hps hk hlen
  have hbp := hchain.breakpointChain hwatch hpos
  obtain ⟨hhops, htarget⟩ := hbp.hopChain
  have hmin : ∀ other, BreakpointChain ps other k → chainCost (fun _ => costChange) opts.stepCosts st.result ≤
      chainCost (fun _ => costChange) opts.stepCosts other := by
    intro other hother
    obtain ⟨hother, htarget'⟩ := hother.hopChain
    exact hcheapest.le hhops htarget hpos hother htarget'
  refine ⟨st, hst, ⟨hbp, fun hw other hother => ?_, fun hw other hother => ?_⟩, ?_⟩
  · have hle := hmin other hother
    rw [stepCosts_of_no_weights hw] at hle
    rwa [show costChange = 1 from rfl, chainCost_one, chainCost_one] at hle
  · have hle := hmin other hother
    rwa [chainCosts_of_breakpoints hbp.2, chainCosts_of_breakpoints hother.2, ← stepCosts_of_weights hw]
  · exact costs_of_no_checkpoints hopts hps hk hlen st hst

end Trace

variable (w : ℕ) (events : List TraceEvent)

/-- **Breakpoint chains are optimal**, behind every position that is a `trace_pos_t`. -/
theorem calculateAllHops_optimal (hopts : opts.useCheckpoints = false) (hwatch : opts.useWatchpoints = false)
    (hpos : 0 < p) (hlen : p ≤ (positions w events).length) (hp : p < 2 ^ 32) :
    ∃ chain, (calculateAllHops w opts (.openTraceFile events)).1[p - 1]? =
      some (chain, chainCosts opts chain % 2 ^ 32) ∧
      OptimalChain opts (positions w events) p chain := by
  obtain ⟨st, hst, hoptimal, hcosts⟩ :=
    hopStateAt_optimal hopts hwatch (tracePosition_of_mem w events) hpos hp hlen
  have hget := calculateAllHops_of_hopStateAt hpos hlen hp (Or.inl rfl) hst
  rw [hcosts] at hget
  exact ⟨st.result, hget, hoptimal⟩

/-- An emitted chain does not lead behind the last `trace_pos_t`. -/
theorem lt_of_calculateAllHops {i costs : ℕ}
    (hget : (calculateAllHops w opts (.openTraceFile events)).1[i]? = some (chain, costs))
    (hchain : LeadsTo (positions w events) chain p) : p < 2 ^ 32 := by
  have hmem := List.mem_of_getElem? hget
  rw [calculateAllHops_eq_emitHops] at hmem
  obtain ⟨d, hd, hlast⟩ := getLast?_of_emitHops _ hmem
  obtain rfl := Option.some.inj (hchain.2.symm.trans hlast)
  have hstart : (TraceReader.openTraceFile events).currentPosition = 1 := rfl
  exact TraceReader.deliveries_lt (hstart ▸ by decide) d hd

/-- **When breakpoint chains are optimal, with their costs**: positions have 32 bits, and with weights on, the
minimum has to fit into an `unsigned int`. -/
theorem breakpoint_chains_optimal_iff (hopts : opts.useCheckpoints = false)
    (hwatch : opts.useWatchpoints = false) (hpos : 0 < p) (hlen : p ≤ (positions w events).length) :
    (∃ chain costs, (calculateAllHops w opts (.openTraceFile events)).1[p - 1]? = some (chain, costs) ∧
        OptimalChain opts (positions w events) p chain ∧
          (opts.useWeights = true → costs = chainCosts opts chain)) ↔
      p < 2 ^ 32 ∧ (opts.useWeights = true →
        ∃ other, BreakpointChain (positions w events) other p ∧ chainCosts opts other < 2 ^ 32) := by
  constructor
  · rintro ⟨chain, costs, hget, hoptimal, hcosts⟩
    have hp := lt_of_calculateAllHops w events hget hoptimal.leads.1
    refine ⟨hp, fun hw => ⟨chain, hoptimal.leads, ?_⟩⟩
    obtain ⟨chain', hget', -⟩ := calculateAllHops_optimal w events hopts hwatch hpos hlen hp
    obtain ⟨rfl, rfl⟩ := Prod.mk.inj (Option.some.inj (hget'.symm.trans hget))
    rw [← hcosts hw]
    exact Nat.mod_lt _ (Nat.two_pow_pos 32)
  · rintro ⟨hp, hfits⟩
    obtain ⟨chain, hget, hoptimal⟩ := calculateAllHops_optimal w events hopts hwatch hpos hlen hp
    refine ⟨chain, _, hget, hoptimal, fun hw => ?_⟩
    obtain ⟨other, hother, hlt⟩ := hfits hw
    exact Nat.mod_eq_of_lt ((hoptimal.cheapest hw other hother).trans_lt hlt)

/-- Breakpoints with weights. -/
def breakpointOptions : HopOptions := { useWatchpoints := false }

/-- The second iteration of the loop. -/
theorem breakpoint_chains_optimal_iff_loopTrace : ∃ chain costs,
    (calculateAllHops 32 breakpointOptions (.openTraceFile loopTrace)).1[3]? = some (chain, costs) ∧
      OptimalChain breakpointOptions (positions 32 loopTrace) 4 chain ∧
      (breakpointOptions.useWeights = true → costs = chainCosts breakpointOptions chain) := by
  have hopts : breakpointOptions.useCheckpoints = false := rfl
  have hlen : 4 ≤ (positions 32 loopTrace).length := by decide
  obtain ⟨chain, hget, hoptimal⟩ := calculateAllHops_optimal 32 loopTrace hopts rfl (by decide) hlen (by decide)
  have hresult : (calculateAllHops 32 breakpointOptions (.openTraceFile loopTrace)).1[3]? =
      some ([((20, .none), 2), ((10, .none), 3), ((20, .none), 4)], 3) := by decide +kernel
  obtain ⟨rfl, -⟩ := Prod.mk.inj (Option.some.inj (hresult.symm.trans hget))
  exact (breakpoint_chains_optimal_iff 32 loopTrace hopts rfl (by decide) hlen).mpr
    ⟨by decide, fun _ => ⟨_, hoptimal.leads, by decide⟩⟩

/-! ## An instruction that is executed all the time -/

section Spin

variable {a : TraceEventTuple} {n q : ℕ}

theorem firstAfter_replicate {te : TraceEventTuple} (h : FirstAfter (Occurs (List.replicate n [a])) q te p) :
    te = a ∧ p = q + 1 := by
  have hocc : ∀ r te, Occurs (List.replicate n [a]) r te ↔ 0 < r ∧ r - 1 < n ∧ te = a := by
    intro r te
    simp [Occurs, List.getElem?_replicate, and_assoc]
  obtain ⟨hlt, hoccurs, habsent⟩ := h
  obtain ⟨-, hle, rfl⟩ := (hocc p te).mp hoccurs
  refine ⟨rfl, ?_⟩
  by_contra hne
  exact habsent (q + 1) (by omega) (by omega) ((hocc (q + 1) te).mpr ⟨by omega, by omega, rfl⟩)

theorem costBehind_replicate (h : HopChain (Occurs (List.replicate n [a])) q chain) :
    costBehind hopCosts a chain + 2 * q = 2 * hopTarget q chain := by
  induction chain generalizing q with
  | nil => exact Nat.zero_add _
  | cons hop chain ih =>
    obtain ⟨te, r⟩ := hop
    obtain ⟨hfirst, hrest⟩ := h
    obtain ⟨rfl, rfl⟩ := firstAfter_replicate hfirst
    have hbehind := ih hrest
    rw [costBehind, hopTarget, ← hbehind, hopCosts, if_pos rfl, costNoChange]
    dsimp only
    omega

theorem chainCosts_replicate (h : BreakpointChain (List.replicate n [a]) chain p) (hpos : 0 < p) :
    chainCosts opts chain + 1 = 2 * p := by
  obtain ⟨⟨hchain, hlast⟩, hbp⟩ := h
  have htarget := hopTarget_of_getLast? hlast
  rw [chainCosts_of_breakpoints hbp]
  cases chain with
  | nil => exact absurd htarget (by rw [hopTarget]; omega)
  | cons hop chain =>
    obtain ⟨te, r⟩ := hop
    obtain ⟨hfirst, hrest⟩ := hchain
    obtain ⟨rfl, rfl⟩ := firstAfter_replicate hfirst
    have hbehind := costBehind_replicate hrest
    rw [hopTarget] at htarget
    rw [htarget] at hbehind
    rw [chainCost, costChange]
    dsimp only
    omega

theorem positions_replicate (n : ℕ) :
    positions 32 (List.replicate n { ip := 10 }) = List.replicate n [((10, .none) : TraceEventTuple)] := by
  have hinstructions : ∀ ev ∈ List.replicate n ({ ip := 10 } : TraceEvent), ev.hasMemaddr = false := by
    intro ev hev
    rw [List.eq_of_mem_replicate hev]
    rfl
  rw [positions_of_instructions 32 hinstructions]
  simp [fetchEvent]

theorem calculateAllHops_replicate (hpos : 0 < n) (hn : n < 2 ^ 32) :
    ∃ chain, (calculateAllHops 32 breakpointOptions (.openTraceFile (List.replicate n { ip := 10 }))).1[n - 1]? =
        some (chain, (2 * n - 1) % 2 ^ 32) ∧
      OptimalChain breakpointOptions (positions 32 (List.replicate n { ip := 10 })) n chain ∧
      chainCosts breakpointOptions chain = 2 * n - 1 := by
  have hopts : breakpointOptions.useCheckpoints = false := rfl
  have hlen : n ≤ (positions 32 (List.replicate n { ip := 10 })).length := by
    rw [positions_replicate, List.length_replicate]
  obtain ⟨chain, hget, hoptimal⟩ :=
    calculateAllHops_optimal 32 (List.replicate n { ip := 10 }) hopts rfl hpos hlen hn
  have hleads := hoptimal.leads
  rw [positions_replicate] at hleads
  have hsum : chainCosts breakpointOptions chain + 1 = 2 * n := chainCosts_replicate hleads hpos
  have hchain : chainCosts breakpointOptions chain = 2 * n - 1 := by omega
  rw [hchain] at hget
  exact ⟨chain, hget, hoptimal, hchain⟩

/-- **The costs wrap**: an instruction that is executed `2 ^ 31 + 1` times in a row. -/
theorem spin_costs_wrap :
    ∃ chain, (calculateAllHops 32 breakpointOptions
        (.openTraceFile (List.replicate 2147483649 { ip := 10 }))).1[2147483648]? = some (chain, 1) ∧
      OptimalChain breakpointOptions (positions 32 (List.replicate 2147483649 { ip := 10 })) 2147483649 chain ∧
      chainCosts breakpointOptions chain = 4294967297 := by
  obtain ⟨chain, hget, hoptimal, hcosts⟩ := calculateAllHops_replicate (n := 2147483649) (by decide) (by decide)
  exact ⟨chain, hget, hoptimal, hcosts⟩

end Spin

end FailStar
