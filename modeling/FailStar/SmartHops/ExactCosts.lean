import FailStar.SmartHops.Rollback

/-! # Exact costs

The costs that are stored for a checkpoint contain a hop that is not in the stored chain. So the tracked costs
get too high when a checkpoint is deleted, unless a new checkpoint takes the place of the chain at once. Whether
a checkpoint is deleted can be read off the state before the position.

* **`HopState.Deletes`** — the position deletes the checkpoint its chain starts with; **`restored_isSome_iff`** —
  this is what the deletion loop does.
* **`HopState.Exact.step_iff`** — when the costs stay exact at a position.
* **`costs_exact_iff`** — the emitted costs are exact if and only if every checkpoint that is deleted is
  replaced. -/

namespace FailStar

variable {opts : HopOptions} {st st' : HopState} {k : ℕ} {es : List TraceEventTuple} {te : TraceEventTuple}
  {ds : List (ℕ × List TraceEventTuple)}

/-! ## Deleting a checkpoint -/

/-- **The checkpoint `cp` is deleted** on the way back to position `lastPos`: the position is not behind the hop
that lies `g_rollback_thresh` hops before the end of the chain stored for `cp`, and the deletion does not stop at
this end. -/
def RollsBack (opts : HopOptions) (cps : List (ℕ × List ResultTuple)) (lastPos : ℕ) (bestTe : TraceEventTuple)
    (cp : ResultTuple) : Prop :=
  cp.1.2 = .checkpoint ∧ ∃ pair ∈ cps[cp.1.1]?, ∃ back ∈ pair.2.getLast?,
    ∃ hop ∈ pair.2.reverse[opts.rollbackThresh]?, lastPos ≤ hop.2 ∧ stopsAt opts lastPos bestTe back = false

/-- **The position deletes the checkpoint its chain starts with**: all its events are known, and on the way back
to where the one that occurred longest ago was last, the deletion passes all hops and the checkpoint. -/
def HopState.Deletes (opts : HopOptions) (st : HopState) (es : List TraceEventTuple) : Prop :=
  (∀ te ∈ es, opts.considers te = true → st.lastPositions te ≠ none) ∧
    ∃ bestTe, FirstMin st.lastPosition (2 ^ 32 - 1) (es.filter opts.considers) bestTe ∧
      (∀ hop ∈ st.result.dropLast, stopsAt opts (st.lastPosition bestTe) bestTe hop = false) ∧
      ∃ cp ∈ st.result.head?, RollsBack opts st.checkpoints (st.lastPosition bestTe) bestTe cp

/-- **A checkpoint that is deleted is replaced** by a new one, if the position is processed at all. -/
def HopState.Replaces (opts : HopOptions) (st : HopState) (tracePos : ℕ) (es : List TraceEventTuple) : Prop :=
  (processPosition opts st tracePos es).isSome = true → st.Deletes opts es →
    st.createsCheckpoint opts tracePos es = true

section Deletion

variable {cps : List (ℕ × List ResultTuple)} {lastPos fuel : ℕ} {bestTe : TraceEventTuple} {cp : ResultTuple}
  {chain : List ResultTuple}

/-- The chain consists of a checkpoint. -/
theorem deletedPair_singleton :
    (deletedPair opts cps lastPos bestTe (fuel + 1) [cp]).isSome = true ↔
      RollsBack opts cps lastPos bestTe cp := by
  rw [deletedPair, RollsBack]
  by_cases hcp : cp.1.2 = .checkpoint
  · rw [if_pos hcp]
    cases hpair : cps[cp.1.1]? with
    | none => simp
    | some pair =>
      cases hrecord : pair.2.reverse with
      | nil => simp [List.reverse_eq_nil_iff.mp hrecord]
      | cons preLast older =>
        have hback : pair.2.getLast? = some preLast := by
          rw [List.getLast?_eq_head?_reverse, hrecord, List.head?_cons]
        cases hhop : (preLast :: older)[opts.rollbackThresh]? with
        | none => simp [hrecord, hhop]
        | some hop =>
          simp only [hcp, hrecord, hhop, hback, Option.mem_def, Option.some.injEq, exists_eq_left', true_and]
          by_cases hlt : hop.2 < lastPos
          · simp [hlt]
          · by_cases hstop : stopsAt opts lastPos bestTe preLast = true
            · simp [hstop]
            · simp [hlt, hstop, Nat.le_of_not_lt hlt]
  · simp [hcp]

/-- The deletion passes the hops behind the checkpoint first. -/
theorem deletedPair_concat (hplain : ∀ hop ∈ chain, Plain hop.1) (hfuel : chain.length < fuel) :
    (deletedPair opts cps lastPos bestTe fuel (chain ++ [cp])).isSome = true ↔
      RollsBack opts cps lastPos bestTe cp ∧
        ∀ hop ∈ (chain ++ [cp]).tail, stopsAt opts lastPos bestTe hop = false := by
  induction chain generalizing fuel with
  | nil =>
    obtain ⟨fuel, rfl⟩ := Nat.exists_eq_add_of_lt hfuel
    simpa using deletedPair_singleton
  | cons last chain ih =>
    obtain ⟨hlast, hchain⟩ := List.forall_mem_cons.mp hplain
    cases fuel with
    | zero => exact absurd hfuel (Nat.not_lt_zero _)
    | succ fuel =>
      have ih := ih hchain (Nat.lt_of_succ_lt_succ hfuel)
      rw [List.cons_append, List.tail_cons]
      cases hrest : chain ++ [cp] with
      | nil => simp at hrest
      | cons preLast rest =>
        rw [hrest, List.tail_cons] at ih
        rw [deletedPair, if_neg hlast.1, List.forall_mem_cons]
        by_cases hstop : stopsAt opts lastPos bestTe preLast = true
        · simp [hstop]
        · rw [if_neg hstop, ih]
          simp [hstop]

/-- Only the first element of the chain may be a checkpoint. -/
theorem deletedPair_isSome_iff (opts : HopOptions) (cps : List (ℕ × List ResultTuple)) (lastPos : ℕ)
    (bestTe : TraceEventTuple) (hplain : ∀ hop ∈ chain.tail, Plain hop.1) (hfuel : chain.length < fuel) :
    (deletedPair opts cps lastPos bestTe fuel chain.reverse).isSome = true ↔
      (∀ hop ∈ chain.dropLast, stopsAt opts lastPos bestTe hop = false) ∧
        ∃ cp ∈ chain.head?, RollsBack opts cps lastPos bestTe cp := by
  cases chain with
  | nil => cases fuel <;> simp [deletedPair]
  | cons cp hops =>
    have hhops : ∀ hop ∈ hops.reverse, Plain hop.1 := fun hop hhop => hplain hop (List.mem_reverse.mp hhop)
    have hlen : hops.reverse.length < fuel := by
      rw [List.length_reverse]
      exact Nat.lt_of_succ_lt hfuel
    rw [List.reverse_cons, deletedPair_concat hhops hlen, ← List.reverse_cons, List.tail_reverse, and_comm]
    simp

end Deletion

/-! ## The state behind a position -/

/-- **The state behind position `k`**: the last positions are up to `k`, and in the chains only the first element
may be a checkpoint. -/
structure HopState.Behind (k : ℕ) (st : HopState) : Prop where
  known : ∀ te pos, st.lastPositions te = some pos → pos ≤ k
  plain : ∀ a ∈ (st.costs, st.result) :: st.checkpoints, ∀ hop ∈ a.2.tail, Plain hop.1

theorem behind_init : HopState.Behind 0 {} where
  known _ _ hpos := nomatch hpos
  plain := List.forall_mem_singleton.mpr (List.forall_mem_nil _)

theorem HopState.Behind.selected (opts : HopOptions) (h : st.Behind k) (hk : k + 1 < 2 ^ 32)
    (es : List TraceEventTuple) : Selected opts st (k + 1) es (st.select opts (k + 1) es) :=
  selected_foldl (fun te pos _ hpos => Nat.lt_succ_of_le (h.known te pos hpos)) hk
    (selected_nil opts st (k + 1)) es

theorem lastPositions_of_processPosition {p : ℕ} (h : processPosition opts st p es = some st') :
    st'.lastPositions = (st.select opts p es).lastPositions := by
  rw [processPosition, ← HopState.select] at h
  generalize st.select opts p es = sel at h ⊢
  split at h
  · rw [← Option.some.inj h]
  · simp only [Option.bind_eq_bind, Option.bind_eq_some_iff] at h
    obtain ⟨bestTe, -, ⟨remaining, costs, forbidden⟩, -, back, -, h⟩ := h
    split at h
    · rw [← Option.some.inj h]
    · rw [← Option.some.inj h]

/-- **The deletion loop deletes a checkpoint** if and only if it can be seen before the position. -/
theorem restored_isSome_iff (h : st.Behind k) (hk : k + 1 < 2 ^ 32) :
    (st.restored opts (k + 1) es).isSome = true ↔ st.Deletes opts es := by
  have hsel := h.selected opts hk es
  have hfuel : st.result.length < st.deletionFuel := by
    rw [HopState.deletionFuel]
    omega
  have hdeletes := fun lastPos bestTe =>
    deletedPair_isSome_iff opts st.checkpoints lastPos bestTe (h.plain _ List.mem_cons_self) hfuel
  have hlastPosition : ∀ {te pos}, st.lastPositions te = some pos → st.lastPosition te = pos := by
    intro te pos hpos
    rw [HopState.lastPosition, hpos, Option.getD_some]
  rw [HopState.restored]
  constructor
  · intro hsome
    split at hsome
    · simp at hsome
    · rename_i hfound
      rw [Bool.not_eq_true] at hfound
      obtain ⟨pair, hpair⟩ := Option.isSome_iff_exists.mp hsome
      obtain ⟨bestTe, hbest, hpair⟩ := Option.bind_eq_some_iff.mp hpair
      obtain ⟨te, hte, hpos, hmin⟩ := (hsel.best hfound).resolve_left fun hnone => by
        have hmem := List.mem_filter.mpr (bestTe_mem opts st (k + 1) es bestTe hbest)
        rw [hnone.2] at hmem
        exact absurd hmem List.not_mem_nil
      obtain rfl : te = bestTe := Option.some.inj (hte.symm.trans hbest)
      refine ⟨hsel.known hfound, te, hmin, ?_⟩
      rw [hlastPosition hpos]
      exact (hdeletes _ _).mp (Option.isSome_of_mem hpair)
  · rintro ⟨hknown, bestTe, hmin, hcp⟩
    have hfound : (st.select opts (k + 1) es).hopFound = false := by
      refine Bool.eq_false_of_not_eq_true fun hfound => ?_
      obtain ⟨te, hnew, -⟩ := hsel.found hfound
      exact hknown te hnew.mem hnew.considered hnew.new
    obtain ⟨te, hte, hpos, hmin'⟩ := (hsel.best hfound).resolve_left fun hnone => by
      have hmem := hmin.mem
      rw [hnone.2] at hmem
      exact absurd hmem List.not_mem_nil
    obtain rfl := hmin.unique hmin'
    rw [hfound, if_neg Bool.false_ne_true, hte, Option.bind_some]
    rw [hlastPosition hpos] at hcp
    exact (hdeletes _ _).mpr hcp

/-- **One position.** -/
theorem HopState.Behind.step (h : st.Behind k) (hk : k + 1 < 2 ^ 32) (hplain : ∀ te ∈ es, Plain te)
    (hst' : processPosition opts st (k + 1) es = some st') : st'.Behind (k + 1) where
  known te pos hpos := by
    rw [lastPositions_of_processPosition hst', (h.selected opts hk es).positions te] at hpos
    split at hpos
    · exact (Option.some.inj hpos).ge
    · exact (h.known te pos hpos).trans (Nat.le_succ k)
  plain := by
    obtain ⟨-, hstored⟩ := List.forall_mem_cons.mp h.plain
    rcases processPosition_eq_some hst' with ⟨hfound, hresult, -, hcps, -⟩ |
      ⟨hfound, bestTe, back, older, costs, forbidden, hbest, hdelete, hcases⟩
    · obtain ⟨-, te, -, hsingle⟩ := (select_costs opts st (k + 1) es).2 hfound
      rw [hcps, hresult, hsingle]
      exact List.forall_mem_cons.mpr ⟨List.forall_mem_nil _, hstored⟩
    · have hremaining : ∀ hop ∈ (back :: older).reverse.tail, Plain hop.1 := by
        have hsource := h.plain _ (st.source_mem opts (k + 1) es)
        obtain ⟨rest, hrest⟩ := (shortens_source hfound hbest hdelete).front
        rw [← hrest, List.tail_append_of_ne_nil (by simp)] at hsource
        exact (List.forall_mem_append.mp hsource).1
      rcases hcases with ⟨-, -, hcps, -, -, hresult⟩ | ⟨-, -, hcps, -, -, hresult⟩
      · rw [hcps, hresult]
        exact List.forall_mem_cons.mpr ⟨List.forall_mem_nil _,
          List.forall_mem_append.mpr ⟨hstored, List.forall_mem_singleton.mpr hremaining⟩⟩
      · rw [hcps, hresult, ← List.reverse_cons]
        refine List.forall_mem_cons.mpr ⟨?_, hstored⟩
        rw [List.tail_append_of_ne_nil (by simp)]
        have hmem := (bestTe_mem opts st (k + 1) es bestTe hbest).1
        exact List.forall_mem_append.mpr ⟨hremaining, List.forall_mem_singleton.mpr (hplain bestTe hmem)⟩

/-! ## Exact costs -/

/-- **Deleting hops keeps costs exact**, and wrong ones wrong. -/
theorem Shortens.exact_iff {a b : ℕ × List ResultTuple} (h : Shortens opts a b) (hb : Covers opts b)
    (hne : a.2 ≠ []) :
    a.1 = chainCosts opts a.2 ↔ b.1 = chainCosts opts b.2 := by
  have hfirst : ∀ hop chain, chainCosts opts (hop :: chain) =
      opts.firstCosts hop.1 + furtherCosts (hop :: chain) := by
    intro hop chain
    rw [chainCosts, furtherCosts, chainCost, chainCost, Nat.zero_add]
  have hcosts := h.costs hb
  obtain ⟨rest, hrest⟩ := h.front
  obtain ⟨hop, front, hfront⟩ := List.exists_cons_of_ne_nil hne
  rw [← hrest, hfront, List.cons_append] at hcosts ⊢
  rw [hfirst, hfirst]
  omega

/-- **The costs are exact behind position `k`**: those of the current chain are its costs, and the stored ones
are too high. -/
structure HopState.Exact (opts : HopOptions) (k : ℕ) (st : HopState) : Prop where
  behind : st.Behind k
  covered : st.Covered opts
  stored : ∀ pair ∈ st.checkpoints, chainCosts opts pair.2 < pair.1
  costs : st.costs = chainCosts opts st.result

theorem exact_init (opts : HopOptions) : HopState.Exact opts 0 {} :=
  ⟨behind_init, covered_init opts, List.forall_mem_nil _, rfl⟩

section Step

variable (h : st.Exact opts k) (hplain : ∀ te ∈ es, Plain te) (hfits : st.Fits opts (k + 1) es)
  (hst' : processPosition opts st (k + 1) es = some st')

include h hfits hst'

/-- The costs stored for a checkpoint contain the hop to it, and the chain does not. -/
theorem HopState.Exact.stored_step : ∀ pair ∈ st'.checkpoints, chainCosts opts pair.2 < pair.1 := by
  rcases processPosition_eq_some hst' with ⟨-, -, -, hcps, -⟩ |
    ⟨hfound, bestTe, back, older, costs, forbidden, hbest, hdelete, ⟨-, -, hcps, -⟩ | ⟨-, -, hcps, -⟩⟩
  · exact hcps ▸ h.stored
  · have hsource : Covers opts (st.source opts (k + 1) es) := h.covered _ (st.source_mem opts (k + 1) es)
    obtain ⟨hmod, hle⟩ := hsource.hop (shortens_source hfound hbest hdelete) (hfits hfound) back.1 bestTe
    have hpos : 0 < hopCosts back.1 bestTe := by
      rw [hopCosts]
      split
      · exact Nat.two_pos
      · exact Nat.one_pos
    rw [hcps]
    refine List.forall_mem_append.mpr ⟨h.stored, List.forall_mem_singleton.mpr ?_⟩
    dsimp only at hmod hle ⊢
    omega
  · exact hcps ▸ h.stored

include hplain

/-- **The costs stay exact at a position** if and only if it deletes no checkpoint, or creates one. -/
theorem HopState.Exact.step_iff (hk : k + 1 < 2 ^ 32) :
    st'.costs = chainCosts opts st'.result ↔
      (st.Deletes opts es → st.createsCheckpoint opts (k + 1) es = true) := by
  rw [← restored_isSome_iff h.behind hk]
  rcases processPosition_eq_some hst' with ⟨hfound, hresult, hcosts, -⟩ |
    ⟨hfound, bestTe, back, older, costs, forbidden, hbest, hdelete, hcases⟩
  · -- a new event
    obtain ⟨hone, te, hte, hsingle⟩ := (select_costs opts st (k + 1) es).2 hfound
    have hexact : st'.costs = chainCosts opts st'.result := by
      rw [hresult, hcosts, hone, hsingle, chainCosts, chainCost_singleton, HopOptions.firstCosts,
        if_neg (hplain te hte).1]
    have hnone : st.restored opts (k + 1) es = none := if_pos hfound
    simp [hexact, hnone]
  · rcases hcases with ⟨hcreates, -, -, -, hcosts, hresult⟩ | ⟨hcreates, -, -, -, hcosts, hresult⟩
    · have hexact : st'.costs = chainCosts opts st'.result := by
        rw [hresult, hcosts, chainCosts, chainCost_singleton, HopOptions.firstCosts, if_pos rfl]
      simp [hexact, hcreates]
    · have hsource : Covers opts (st.source opts (k + 1) es) := h.covered _ (st.source_mem opts (k + 1) es)
      have hshort := shortens_source hfound hbest hdelete
      obtain ⟨hmod, -⟩ := hsource.hop hshort (hfits hfound) back.1 bestTe
      have hchain : chainCosts opts st'.result =
          chainCosts opts (back :: older).reverse + hopCosts back.1 bestTe := by
        rw [hresult, chainCosts, chainCost_concat, chainCosts, List.reverse_cons]
      -- the new hop is added to the chain and to the costs
      have hnew : st'.costs = chainCosts opts st'.result ↔
          (st.source opts (k + 1) es).1 = chainCosts opts (st.source opts (k + 1) es).2 := by
        rw [← hshort.exact_iff hsource (by simp), hcosts, hmod, hchain]
        exact Nat.add_right_cancel_iff
      rw [hnew, hcreates, HopState.source]
      cases hrestored : st.restored opts (k + 1) es with
      | none => simp [h.costs]
      | some pair =>
        have hmem : pair ∈ st.checkpoints := by
          rw [HopState.restored, if_neg (by simp [hfound])] at hrestored
          obtain ⟨_, -, hpair⟩ := Option.bind_eq_some_iff.mp hrestored
          exact deletedPair_mem hpair
        simpa using (h.stored pair hmem).ne'

end Step

/-- **The emitted costs are exact** if and only if every checkpoint that is deleted is replaced. -/
theorem emitHops_exact_iff (hopts : opts.Accepted) (hplain : ∀ d ∈ ds, ∀ te ∈ d.2, Plain te)
    (hpositions : ∀ i d, ds[i]? = some d → d.1 = k + 1 + i) (hlen : k + ds.length < 2 ^ 32) (h : st.Exact opts k)
    (hfits : AllSteps opts (HopState.Fits opts) ds st) :
    (∀ r ∈ emitHops opts ds st, r.2 = chainCosts opts r.1) ↔ AllSteps opts (HopState.Replaces opts) ds st := by
  induction ds generalizing st k with
  | nil => simp [emitHops, AllSteps]
  | cons d ds ih =>
    obtain ⟨p, es⟩ := d
    obtain rfl : p = k + 1 := hpositions 0 _ rfl
    obtain ⟨hes, hds⟩ := List.forall_mem_cons.mp hplain
    obtain ⟨hfitsNow, hfitsRest⟩ := hfits
    rw [List.length_cons] at hlen
    rw [emitHops, AllSteps, HopState.Replaces]
    cases hst' : processPosition opts st (k + 1) es with
    | none => simp
    | some st' =>
      have hstep := h.step_iff hes hfitsNow hst' (by omega)
      simp only [List.forall_mem_cons, Option.isSome_some, forall_const, Option.mem_def, Option.some.injEq,
        forall_eq']
      rw [← hstep]
      refine and_congr_right fun hexact => ?_
      have hpositions' : ∀ i d, ds[i]? = some d → d.1 = k + 1 + 1 + i := by
        intro i d hd
        rw [hpositions (i + 1) d hd]
        omega
      exact ih hds hpositions' (by omega)
        ⟨h.behind.step (by omega) hes hst', (h.covered.step hopts hes hfitsNow hst').1,
          h.stored_step hfitsNow hst', hexact⟩ (hfitsRest st' hst')

/-- **When the emitted costs are those of the emitted chains**, for a trace that is short enough for its costs to
be an `unsigned int`: every position that deletes the checkpoint its chain starts with creates a new one. -/
theorem costs_exact_iff (w : ℕ) (events : List TraceEvent) (numInst : ℕ) (hopts : opts.Accepted)
    (hshort : opts.costCp + 2 * events.length + 5 < 2 ^ 32) :
    (∀ r ∈ (calculateAllHops w opts (.openTraceFile events numInst)).1, r.2 = chainCosts opts r.1) ↔
      AllSteps opts (HopState.Replaces opts)
        ((TraceReader.openTraceFile events numInst).deliveries w (events.length + 2)) {} := by
  have hlen := TraceReader.length_deliveries_le w (events.length + 2) (.openTraceFile events numInst)
  rw [calculateAllHops_eq_emitHops]
  refine emitHops_exact_iff hopts (plain_of_deliveries w _ _) (fun i d hd => ?_) (by omega) (exact_init opts)
    (fits_of_short_trace w events numInst hopts hshort)
  have hi := (List.getElem?_eq_some_iff.mp hd).1
  have hposition : d.1 = (1 + i) % 2 ^ 32 := TraceReader.deliveries_position rfl hd
  omega

/-- The checkpoint of position 5 is deleted at position 6, which creates another one. -/
theorem costs_exact_iff_rollbackTrace : rollbackOptions.Accepted ∧
    AllSteps rollbackOptions (HopState.Replaces rollbackOptions)
      ((TraceReader.openTraceFile rollbackTrace).deliveries 32 9) {} := by
  have haccepted : rollbackOptions.Accepted := fun _ => by decide
  exact ⟨haccepted, (costs_exact_iff 32 rollbackTrace 0 haccepted (by decide)).mp (by decide +kernel)⟩

/-- **The costs stay behind when a checkpoint is deleted**: the chain to position 5 costs 2, and 4 is emitted. -/
theorem deleted_checkpoint_costs : spinOptions.Accepted ∧
    (calculateAllHops 32 spinOptions (.openTraceFile spinTrace)).1[4]? =
      some ([((20, .none), 2), ((10, .none), 5)], 4) ∧
    chainCosts spinOptions [((20, .none), 2), ((10, .none), 5)] = 2 :=
  ⟨fun _ => by decide, by decide +kernel, by decide⟩

end FailStar
