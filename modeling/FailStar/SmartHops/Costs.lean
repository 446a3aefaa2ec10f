import FailStar.Foundations.ChainCosts
import FailStar.SmartHops.Navigation

/-! # The costs of hop chains

The hop calculator keeps the costs of its chain up to date while it deletes and appends hops. Behind a checkpoint
it restores the costs and the chain that were stored when the checkpoint was created. But these costs already
contain the hop to the position of the checkpoint, and the chain does not.

* **`chainCosts`** — the costs of a chain, computed from scratch.
* **`deletedPair`** — what is restored by the deletion loop; **`deleteHops_leaves`** — the rule for what it
  leaves.
* **`HopState.select`**, **`HopState.restored`**, **`HopState.createsCheckpoint`** — what happens at a position;
  **`processPosition_eq_some`** — the three ways it is processed.
* **`costs_of_no_checkpoints`** — without checkpoints, all costs are exact. -/

namespace FailStar

/-- The costs of the first element of a chain. -/
def HopOptions.firstCosts (opts : HopOptions) (te : TraceEventTuple) : ℕ :=
  if te.2 = .checkpoint then opts.costCp else costChange

/-- **The costs of a chain**, computed from scratch. -/
def chainCosts (opts : HopOptions) (chain : List ResultTuple) : ℕ := chainCost opts.firstCosts hopCosts chain

variable {opts : HopOptions} {st st' : HopState} {p : ℕ} {es : List TraceEventTuple}

theorem hopCosts_le (prev te : TraceEventTuple) : hopCosts prev te ≤ 2 := by
  rw [hopCosts]
  split
  · exact le_rfl
  · exact Nat.le_succ 1

theorem chainCosts_reverse_cons (last preLast : ResultTuple) (rest : List ResultTuple) :
    chainCosts opts (last :: preLast :: rest).reverse =
      chainCosts opts (preLast :: rest).reverse + hopCosts preLast.1 last.1 := by
  rw [List.reverse_cons, List.reverse_cons, chainCosts, chainCost_concat, chainCosts]

/-! ## The deletion loop -/

/-- **The pair that the deletion loop restores last**, if it deletes a checkpoint. -/
def deletedPair (opts : HopOptions) (checkpoints : List (ℕ × List ResultTuple)) (lastPos : ℕ)
    (bestTe : TraceEventTuple) : ℕ → List ResultTuple → Option (ℕ × List ResultTuple)
  | _, [] => none
  | 0, _ :: _ => none
  | fuel + 1, [last] =>
    if last.1.2 = .checkpoint then
      match checkpoints[last.1.1]? with
      | none => none
      | some pair =>
        match pair.2.reverse with
        | [] => none
        | preLast :: older =>
          match (preLast :: older)[opts.rollbackThresh]? with
          | none => none
          | some hop =>
            if hop.2 < lastPos then none
            else if stopsAt opts lastPos bestTe preLast then none
            else some ((deletedPair opts checkpoints lastPos bestTe fuel (preLast :: older)).getD pair)
    else none
  | fuel + 1, last :: preLast :: rest =>
    if stopsAt opts lastPos bestTe preLast then none
    else if last.1.2 = .checkpoint then
      match checkpoints[last.1.1]? with
      | none => none
      | some pair => some ((deletedPair opts checkpoints lastPos bestTe fuel pair.2.reverse).getD pair)
    else deletedPair opts checkpoints lastPos bestTe fuel (preLast :: rest)

/-- The costs of two chains are exact, or wrong by the same amount. -/
def EquallyExact (opts : HopOptions) (a b : ℕ × List ResultTuple) : Prop :=
  (a.1 + chainCosts opts b.2) % 2 ^ 32 = (b.1 + chainCosts opts a.2) % 2 ^ 32

theorem EquallyExact.refl (opts : HopOptions) (a : ℕ × List ResultTuple) : EquallyExact opts a a := rfl

theorem EquallyExact.of_delete {costs : ℕ} {last preLast : ResultTuple} {rest : List ResultTuple}
    {a : ℕ × List ResultTuple}
    (h : EquallyExact opts a
      ((costs + 2 ^ 32 - hopCosts preLast.1 last.1) % 2 ^ 32, (preLast :: rest).reverse)) :
    EquallyExact opts a (costs, (last :: preLast :: rest).reverse) := by
  have hle := hopCosts_le preLast.1 last.1
  unfold EquallyExact at h ⊢
  rw [chainCosts_reverse_cons]
  dsimp only at h ⊢
  omega

section Deletion

variable {cps : List (ℕ × List ResultTuple)} {lastPos : ℕ} {bestTe : TraceEventTuple} {fuel : ℕ}

/-- A relation between costs with their chain that holds when nothing is deleted, and is kept when one more hop
is deleted together with its costs. -/
structure DeletionRule (R : ℕ × List ResultTuple → ℕ × List ResultTuple → Prop) : Prop where
  refl : ∀ a, R a a
  delete : ∀ {a costs last preLast rest},
    R a ((costs + 2 ^ 32 - hopCosts preLast.1 last.1) % 2 ^ 32, (preLast :: rest).reverse) →
    R a (costs, (last :: preLast :: rest).reverse)

/-- The deletion loop leaves something that is related to what it restored last, or to what it started with. -/
def Leaves (R : ℕ × List ResultTuple → ℕ × List ResultTuple → Prop) (opts : HopOptions)
    (cps : List (ℕ × List ResultTuple)) (lastPos : ℕ) (bestTe : TraceEventTuple) (fuel : ℕ) : Prop :=
  ∀ {chain remaining costs costs' forbidden},
    deleteHops opts cps lastPos bestTe fuel chain costs = some (remaining, costs', forbidden) →
    R (costs', remaining.reverse) ((deletedPair opts cps lastPos bestTe fuel chain).getD (costs, chain.reverse))

section Rule

variable {R : ℕ × List ResultTuple → ℕ × List ResultTuple → Prop} (hR : DeletionRule R)

include hR

/-- The first node is a checkpoint, or the last one. -/
theorem Leaves.singleton (ih : Leaves R opts cps lastPos bestTe fuel) {last : ResultTuple}
    {remaining : List ResultTuple} {costs costs' : ℕ} {forbidden : Bool}
    (h : deleteHops opts cps lastPos bestTe (fuel + 1) [last] costs = some (remaining, costs', forbidden)) :
    R (costs', remaining.reverse)
      ((deletedPair opts cps lastPos bestTe (fuel + 1) [last]).getD (costs, [last].reverse)) := by
  -- on all paths but one, the checkpoint stays and nothing is restored
  have hkept : ∀ {forbidden'}, some ([last], costs, forbidden') = some (remaining, costs', forbidden) →
      R (costs', remaining.reverse) (costs, [last].reverse) := by
    intro forbidden' heq
    obtain ⟨rfl, rfl, -⟩ : [last] = remaining ∧ costs = costs' ∧ forbidden' = forbidden := by simpa using heq
    exact hR.refl _
  rw [deleteHops] at h
  rw [deletedPair]
  split at h
  · rename_i hcp
    rw [if_pos hcp]
    cases hpair : cps[last.1.1]? with
    | none => simp [hpair] at h
    | some pair =>
      simp only [hpair] at h ⊢
      cases hrecord : pair.2.reverse with
      | nil =>
        simp only [hrecord] at h ⊢
        exact hkept h
      | cons preLast older =>
        simp only [hrecord] at h ⊢
        cases hhop : (preLast :: older)[opts.rollbackThresh]? with
        | none => simp [hhop] at h
        | some hop =>
          simp only [hhop] at h ⊢
          split at h
          · rename_i hlt
            rw [if_pos hlt]
            exact hkept h
          · rename_i hlt
            rw [if_neg hlt]
            split at h
            · rename_i hstop
              rw [if_pos hstop]
              exact hkept h
            · -- the pair is restored, and the loop goes on with its chain
              rename_i hstop
              rw [if_neg hstop]
              have hrest := ih h
              rw [← hrecord] at hrest ⊢
              rwa [List.reverse_reverse] at hrest
  · rename_i hplain
    rw [if_neg hplain]
    exact hkept h

/-- A hop is deleted, or a checkpoint that is not the first node. -/
theorem Leaves.cons_cons (ih : Leaves R opts cps lastPos bestTe fuel) {last preLast : ResultTuple}
    {rest remaining : List ResultTuple} {costs costs' : ℕ} {forbidden : Bool}
    (h : deleteHops opts cps lastPos bestTe (fuel + 1) (last :: preLast :: rest) costs =
      some (remaining, costs', forbidden)) :
    R (costs', remaining.reverse)
      ((deletedPair opts cps lastPos bestTe (fuel + 1) (last :: preLast :: rest)).getD
        (costs, (last :: preLast :: rest).reverse)) := by
  rw [deleteHops] at h
  rw [deletedPair]
  by_cases hstop : stopsAt opts lastPos bestTe preLast = true
  · rw [if_pos hstop] at h ⊢
    simp only [Option.some.injEq, Prod.mk.injEq] at h
    rw [← h.1, ← h.2.1]
    exact hR.refl _
  · rw [if_neg hstop] at h ⊢
    by_cases hcp : last.1.2 = .checkpoint
    · rw [if_pos hcp] at h ⊢
      cases hpair : cps[last.1.1]? with
      | none =>
        simp only [hpair, reduceCtorEq] at h
      | some pair =>
        simp only [hpair] at h ⊢
        have hrest := ih h
        rwa [List.reverse_reverse] at hrest
    · rw [if_neg hcp] at h ⊢
      have hrest := ih h
      cases hpair : deletedPair opts cps lastPos bestTe fuel (preLast :: rest) with
      | some pair =>
        rw [hpair, Option.getD_some] at hrest
        rw [Option.getD_some]
        exact hrest
      | none =>
        -- nothing is restored behind the deleted hop, whose costs are subtracted
        rw [hpair, Option.getD_none] at hrest
        rw [Option.getD_none]
        exact hR.delete hrest

/-- **The rule of the deletion loop.** -/
theorem deleteHops_leaves (opts : HopOptions) (cps : List (ℕ × List ResultTuple)) (lastPos : ℕ)
    (bestTe : TraceEventTuple) (fuel : ℕ) : Leaves R opts cps lastPos bestTe fuel := by
  have hnil : ∀ {remaining costs costs' forbidden fuel},
      deleteHops opts cps lastPos bestTe fuel [] costs = some (remaining, costs', forbidden) →
      R (costs', remaining.reverse) (costs, [].reverse) := by
    intro remaining costs costs' forbidden fuel h
    obtain ⟨rfl, rfl, -⟩ : [] = remaining ∧ costs = costs' ∧ false = forbidden := by
      simpa [deleteHops] using h
    exact hR.refl _
  induction fuel with
  | zero =>
    intro chain remaining costs costs' forbidden h
    cases chain with
    | nil => exact hnil h
    | cons last rest => simp [deleteHops] at h
  | succ fuel ih =>
    intro chain remaining costs costs' forbidden h
    rcases chain with _ | ⟨last, _ | ⟨preLast, rest⟩⟩
    · exact hnil h
    · exact ih.singleton hR h
    · exact ih.cons_cons hR h

end Rule

theorem deletionRule_equallyExact (opts : HopOptions) : DeletionRule (EquallyExact opts) :=
  ⟨EquallyExact.refl opts, EquallyExact.of_delete⟩

theorem deletedPair_of_plain {chain : List ResultTuple} (h : ∀ hop ∈ chain, Plain hop.1) :
    deletedPair opts cps lastPos bestTe fuel chain = none := by
  induction fuel generalizing chain with
  | zero => cases chain <;> rfl
  | succ fuel ih =>
    match chain, h with
    | [], _ => rfl
    | [last], h => rw [deletedPair, if_neg (h last List.mem_cons_self).1]
    | last :: preLast :: rest, h =>
      rw [deletedPair, if_neg (h last List.mem_cons_self).1, ih fun hop hhop =>
        h hop (List.mem_cons_of_mem _ hhop), ite_self]

end Deletion

/-! ## One position -/

/-- The local variables behind the loop over the events of a position. -/
def HopState.select (opts : HopOptions) (st : HopState) (tracePos : ℕ) (es : List TraceEventTuple) : Selection :=
  es.foldl (considerEvent opts tracePos)
    { lastPositions := st.lastPositions, result := st.result, costs := st.costs }

/-- The loop leaves the chain and its costs as they are, unless it finds a new event. -/
theorem select_costs (opts : HopOptions) (st : HopState) (p : ℕ) (es : List TraceEventTuple) :
    ((st.select opts p es).hopFound = false →
        (st.select opts p es).result = st.result ∧ (st.select opts p es).costs = st.costs) ∧
      ((st.select opts p es).hopFound = true →
        (st.select opts p es).costs = costChange ∧ ∃ te ∈ es, (st.select opts p es).result = [(te, p)]) := by
  -- only the first new event touches the chain
  induction es using List.reverseRecOn with
  | nil => exact ⟨fun _ => ⟨rfl, rfl⟩, fun hfound => absurd hfound Bool.false_ne_true⟩
  | append_singleton es te ih =>
    have hstep : st.select opts p (es ++ [te]) = considerEvent opts p (st.select opts p es) te :=
      List.foldl_concat ..
    rw [hstep]
    generalize st.select opts p es = sel at ih
    obtain ⟨hkept, hnew⟩ := ih
    have hnew' : sel.hopFound = true → sel.costs = costChange ∧ ∃ te' ∈ es ++ [te], sel.result = [(te', p)] := by
      intro hfound
      obtain ⟨hcosts, te', hte', hresult⟩ := hnew hfound
      exact ⟨hcosts, te', List.mem_append_left _ hte', hresult⟩
    rw [considerEvent]
    split
    · dsimp only
      split
      · split
        · exact ⟨hkept, hnew'⟩
        · exact ⟨fun hfound => absurd hfound (by simp), fun _ => ⟨rfl, te, by simp, rfl⟩⟩
      · split
        · exact ⟨hkept, hnew'⟩
        · exact ⟨hkept, hnew'⟩
    · exact ⟨hkept, hnew'⟩

/-- **What is restored at a position**, if a checkpoint is deleted there. -/
def HopState.restored (opts : HopOptions) (st : HopState) (tracePos : ℕ) (es : List TraceEventTuple) :
    Option (ℕ × List ResultTuple) :=
  let sel := st.select opts tracePos es
  if sel.hopFound then none
  else sel.bestTe.bind fun bestTe =>
    deletedPair opts st.checkpoints sel.lastPos bestTe st.deletionFuel st.result.reverse

/-- A checkpoint is needed at the position: the new hop is too expensive, and the last checkpoint is not kept. -/
def HopState.createsCheckpoint (opts : HopOptions) (st : HopState) (tracePos : ℕ) (es : List TraceEventTuple) :
    Bool :=
  let sel := st.select opts tracePos es
  let needed : Option Bool := do
    let bestTe ← sel.bestTe
    let (remaining, costs, checkpointForbidden) ←
      deleteHops opts st.checkpoints sel.lastPos bestTe st.deletionFuel st.result.reverse st.costs
    let back ← remaining.head?
    some (opts.useCheckpoints && decide (opts.cpThresh < (costs + hopCosts back.1 bestTe) % 2 ^ 32) &&
      !checkpointForbidden)
  !sel.hopFound && needed.getD false

/-- The three ways a position is processed: a new event, a new checkpoint, or a hop behind what is left of the
chain. -/
theorem processPosition_eq_some (h : processPosition opts st p es = some st') :
    (st.select opts p es).hopFound = true ∧ st'.result = (st.select opts p es).result ∧
        st'.costs = (st.select opts p es).costs ∧ st'.checkpoints = st.checkpoints ∧ st'.nextCpId = st.nextCpId ∨
      (st.select opts p es).hopFound = false ∧ ∃ bestTe back older costs forbidden,
        (st.select opts p es).bestTe = some bestTe ∧
        deleteHops opts st.checkpoints
          (st.select opts p es).lastPos bestTe st.deletionFuel st.result.reverse st.costs =
          some (back :: older, costs, forbidden) ∧
        (st.createsCheckpoint opts p es = true ∧
            (opts.useCheckpoints = true ∧ opts.cpThresh < (costs + hopCosts back.1 bestTe) % 2 ^ 32) ∧
            st'.checkpoints =
              st.checkpoints ++ [((costs + hopCosts back.1 bestTe) % 2 ^ 32, (back :: older).reverse)] ∧
            st'.nextCpId = (st.nextCpId + 1) % 2 ^ 32 ∧
            st'.costs = opts.costCp ∧ st'.result = [((st.nextCpId, .checkpoint), p)] ∨
          st.createsCheckpoint opts p es = false ∧
            (opts.useCheckpoints = true → forbidden = false →
              (costs + hopCosts back.1 bestTe) % 2 ^ 32 ≤ opts.cpThresh) ∧
            st'.checkpoints = st.checkpoints ∧ st'.nextCpId = st.nextCpId ∧
            st'.costs = (costs + hopCosts back.1 bestTe) % 2 ^ 32 ∧
            st'.result = older.reverse ++ [back] ++ [(bestTe, p)]) := by
  obtain ⟨hkept, -⟩ := select_costs opts st p es
  rw [processPosition, ← HopState.select] at h
  unfold HopState.createsCheckpoint
  generalize st.select opts p es = sel at h hkept ⊢
  by_cases hfound : sel.hopFound = true
  · simp only [hfound, if_true, Option.some.injEq] at h
    rw [← h]
    exact Or.inl ⟨hfound, rfl, rfl, rfl, rfl⟩
  · rw [Bool.not_eq_true] at hfound
    obtain ⟨hresult, hcosts⟩ := hkept hfound
    simp only [hfound, Bool.false_eq_true, if_false, Option.bind_eq_bind, Option.bind_eq_some_iff] at h
    obtain ⟨bestTe, hbest, ⟨remaining, costs, forbidden⟩, hdelete, back, hback, h⟩ := h
    obtain ⟨older, rfl⟩ : ∃ older, remaining = back :: older := List.head?_eq_some_iff.mp hback
    -- the deletion loop starts with the chain and the costs of before, as no event was new
    rw [hresult, hcosts] at hdelete
    change deleteHops opts st.checkpoints sel.lastPos bestTe st.deletionFuel st.result.reverse st.costs =
      _ at hdelete
    refine Or.inr ⟨hfound, bestTe, back, older, costs, forbidden, hbest, hdelete, ?_⟩
    simp only [hfound, hbest, hdelete, hback, Option.bind_eq_bind, Option.bind_some, Option.getD_some,
      Bool.not_false, Bool.true_and]
    by_cases hcp : (opts.useCheckpoints &&
        decide (opts.cpThresh < (costs + hopCosts back.1 bestTe) % 2 ^ 32) && !forbidden) = true
    · rw [if_pos hcp, Option.some.injEq] at h
      rw [← h]
      refine Or.inl ⟨hcp, ?_, rfl, rfl, rfl, rfl⟩
      simp only [Bool.and_eq_true, decide_eq_true_eq] at hcp
      exact hcp.1
    · rw [if_neg hcp, Option.some.injEq] at h
      rw [← h]
      refine Or.inr ⟨Bool.eq_false_of_not_eq_true hcp, fun huse hforbidden => ?_, rfl, rfl, rfl, ?_⟩
      · rw [huse, hforbidden] at hcp
        simpa using hcp
      · rw [List.reverse_cons]

/-- **The costs behind a position** are exact as an `unsigned int`, if they are before it, and no checkpoint is
involved. -/
theorem processPosition_costs (hplain : ∀ te ∈ es, Plain te) (h : processPosition opts st p es = some st')
    (hcreates : opts.useCheckpoints = false) (hrestored : st.restored opts p es = none)
    (hexact : st.costs = chainCosts opts st.result % 2 ^ 32) :
    st'.costs = chainCosts opts st'.result % 2 ^ 32 := by
  rcases processPosition_eq_some h with ⟨hfound, hresult, hcosts, -⟩ |
    ⟨hfound, bestTe, back, older, costs, forbidden, hbest, hdelete,
      ⟨-, ⟨huse, -⟩, -⟩ | ⟨-, -, -, -, hcosts, hresult⟩⟩
  · -- a new event
    obtain ⟨hone, te, hte, hsingle⟩ := (select_costs opts st p es).2 hfound
    rw [hresult, hcosts, hone, hsingle, chainCosts, chainCost_singleton, HopOptions.firstCosts,
      if_neg (hplain te hte).1]
    decide
  · exact absurd (hcreates.symm.trans huse) Bool.false_ne_true
  · have hkeeps := deleteHops_leaves (deletionRule_equallyExact opts) opts _ _ _ _ hdelete
    rw [HopState.restored, hfound, if_neg Bool.false_ne_true, hbest, Option.bind_some] at hrestored
    have hchain : chainCosts opts st'.result = chainCosts opts (back :: older).reverse +
        hopCosts back.1 bestTe := by
      rw [hresult, chainCosts, chainCost_concat, chainCosts, List.reverse_cons]
    rw [hrestored, List.reverse_reverse, Option.getD_none, EquallyExact] at hkeeps
    rw [hcosts, hchain]
    dsimp only at hkeeps
    omega

/-! ## A whole trace -/

/-- The parameters that compute-hops accepts. -/
def HopOptions.Accepted (opts : HopOptions) : Prop :=
  opts.useCheckpoints = true → opts.costCp < opts.cpThresh ∧
    opts.rollbackThresh < (opts.cpThresh - opts.costCp) / 2 ∧ opts.cpThresh < 2 ^ 32

/-- The loop of `calculateAllHops` over what the reader delivers. -/
def emitHops (opts : HopOptions) : List (ℕ × List TraceEventTuple) → HopState → List (List ResultTuple × ℕ)
  | [], _ => []
  | (tracePos, es) :: ds, st =>
    match processPosition opts st tracePos es with
    | none => []
    | some st => (st.result, st.costs) :: emitHops opts ds st

variable {ds : List (ℕ × List TraceEventTuple)}

theorem allHops_eq_emitHops (w fuel : ℕ) (r : TraceReader) (tracePos : ℕ) (traceEvents : List TraceEventTuple)
    (st : HopState) :
    (allHops w opts fuel r tracePos traceEvents st).1 = emitHops opts (r.deliveries w fuel) st := by
  induction fuel generalizing r tracePos traceEvents st with
  | zero => rfl
  | succ fuel ih =>
    rcases r.getNextTraceEvents_cases w with ⟨ev, stream, r', -, hcall⟩ | hcall
    · simp only [allHops, TraceReader.deliveries, hcall, if_true, emitHops]
      cases processPosition opts st r.currentPosition (fetchEvent w ev :: (readAccesses w stream).1) with
      | none => rfl
      | some st' =>
        dsimp only
        rw [ih]
    · simp [allHops, TraceReader.deliveries, hcall, emitHops]

theorem plain_of_deliveries (w fuel : ℕ) (r : TraceReader) :
    ∀ d ∈ r.deliveries w fuel, ∀ te ∈ d.2, Plain te := by
  induction fuel generalizing r with
  | zero => simp [TraceReader.deliveries]
  | succ fuel ih =>
    rcases r.getNextTraceEvents_cases w with ⟨ev, stream, r', -, hcall⟩ | hcall
    · have hposition : TracePosition (fetchEvent w ev :: (readAccesses w stream).1) := by
        refine ⟨fetchEvent w ev, _, rfl, rfl, ?_⟩
        rw [(readAccesses_eq w stream).1]
        exact (splitPositions_spec w stream).1
      simp only [TraceReader.deliveries, hcall, if_true]
      exact List.forall_mem_cons.mpr ⟨hposition.plain, ih r'⟩
    · simp [TraceReader.deliveries, hcall]

theorem getLast?_of_emitHops : ∀ r ∈ emitHops opts ds st, ∃ d ∈ ds, r.1.getLast?.map Prod.snd = some d.1 := by
  induction ds generalizing st with
  | nil => simp [emitHops]
  | cons d ds ih =>
    obtain ⟨p, es⟩ := d
    intro r hr
    rw [emitHops] at hr
    cases hprocess : processPosition opts st p es with
    | none => simp [hprocess] at hr
    | some st' =>
      simp only [hprocess, List.mem_cons] at hr
      rcases hr with rfl | hr
      · refine ⟨(p, es), List.mem_cons_self, ?_⟩
        rcases processPosition_eq_some hprocess with ⟨hfound, hresult, -⟩ |
          ⟨-, bestTe, back, older, costs, forbidden, -, -, ⟨-, -, -, -, -, hresult⟩ | ⟨-, -, -, -, -, hresult⟩⟩
        · obtain ⟨-, te, -, hsingle⟩ := (select_costs opts st p es).2 hfound
          simp [hresult, hsingle]
        · simp [hresult]
        · simp [hresult]
      · obtain ⟨d, hd, hlast⟩ := ih r hr
        exact ⟨d, List.mem_cons_of_mem _ hd, hlast⟩

/-- Without checkpoints, the costs behind every position are exact. -/
theorem costs_of_no_checkpoints {ps : List (List TraceEventTuple)} {n : ℕ} (hopts : opts.useCheckpoints = false)
    (hps : ∀ es ∈ ps, TracePosition es) (hn : n < 2 ^ 32) (hlen : n ≤ ps.length) :
    ∀ st ∈ hopStateAt opts ps n, st.costs = chainCosts opts st.result % 2 ^ 32 := by
  induction n with
  | zero =>
    intro st hst
    obtain rfl : {} = st := Option.some.inj hst
    rfl
  | succ k ih =>
    intro st' hst'
    obtain ⟨st, hst, hchain⟩ := hopStateAt_chainUpTo opts (k := k) hopts hps (by omega) (by omega)
    rw [hopStateAt, hst, Option.bind_some, List.getElem?_eq_getElem hlen, Option.bind_some] at hst'
    -- there is no checkpoint in the chain that could be deleted
    have hplain : ∀ hop ∈ st.result.reverse, Plain hop.1 := fun hop hhop =>
      (hchain.events hop (List.mem_reverse.mp hhop)).2
    have hnone : st.restored opts (k + 1) ps[k] = none := by
      simp only [HopState.restored, deletedPair_of_plain hplain]
      split
      · rfl
      · simp
    exact processPosition_costs (hps _ (List.getElem_mem _)).plain hst' hopts hnone
      (ih (by omega) (by omega) st hst)

theorem calculateAllHops_eq_emitHops (w : ℕ) (events : List TraceEvent) (numInst : ℕ) :
    (calculateAllHops w opts (.openTraceFile events numInst)).1 =
      emitHops opts ((TraceReader.openTraceFile events numInst).deliveries w (events.length + 2)) {} :=
  allHops_eq_emitHops ..

end FailStar
