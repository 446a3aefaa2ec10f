import FailStar.SmartHops.Checkpoints

/-! # Deleting checkpoints

The first node of a chain may be a checkpoint. Before it is deleted, the offline tool looks at the hop that lies
`g_rollback_thresh` hops before the end of the chain stored for it, and keeps the checkpoint if the deletion
would not go back that far. It relies on the stored chain being long enough, as it was too expensive to be
extended.

* **`lookBehinds`** — the stored chains that are looked at; **`lookBehinds_stored`** — these are what was stored.
* **`HopState.Accurate`**, **`look_behind_in_range`** — the look stays within the stored chain, if the tracked
  costs are not too high whenever a checkpoint is created.
* **`HopState.Resolved`** — all references lead to earlier checkpoints. -/

namespace FailStar

variable {opts : HopOptions} {st st' : HopState} {p : ℕ} {es : List TraceEventTuple}

/-! ## The look at the stored chain -/

/-- **The stored chains the deletion loop looks at**, in reverse: those it evaluates
`*(rit_pre_last + g_rollback_thresh)` on. -/
def lookBehinds (opts : HopOptions) (checkpoints : List (ℕ × List ResultTuple)) (lastPos : ℕ)
    (bestTe : TraceEventTuple) : ℕ → List ResultTuple → List (List ResultTuple)
  | _, [] => []
  | 0, _ :: _ => []
  | fuel + 1, [last] =>
    if last.1.2 = .checkpoint then
      match checkpoints[last.1.1]? with
      | none => []
      | some pair =>
        match pair.2.reverse with
        | [] => []
        | preLast :: older =>
          (preLast :: older) ::
            match (preLast :: older)[opts.rollbackThresh]? with
            | none => []
            | some hop =>
              if hop.2 < lastPos then []
              else if stopsAt opts lastPos bestTe preLast then []
              else lookBehinds opts checkpoints lastPos bestTe fuel (preLast :: older)
    else []
  | fuel + 1, last :: preLast :: rest =>
    if stopsAt opts lastPos bestTe preLast then []
    else if last.1.2 = .checkpoint then
      match checkpoints[last.1.1]? with
      | none => []
      | some pair => lookBehinds opts checkpoints lastPos bestTe fuel pair.2.reverse
    else lookBehinds opts checkpoints lastPos bestTe fuel (preLast :: rest)

/-- **The look stays within the stored chain**, whenever there is one at the position. -/
def HopState.InRange (opts : HopOptions) (st : HopState) (tracePos : ℕ) (es : List TraceEventTuple) : Prop :=
  (st.select opts tracePos es).hopFound = false → ∀ bestTe ∈ (st.select opts tracePos es).bestTe,
    ∀ record ∈ lookBehinds opts st.checkpoints (st.select opts tracePos es).lastPos bestTe st.deletionFuel
      st.result.reverse, opts.rollbackThresh < record.length

/-- **The costs are accurate enough to create a checkpoint**: they are at least those of the source, and not much
higher. -/
def HopState.Accurate (opts : HopOptions) (st : HopState) (tracePos : ℕ) (es : List TraceEventTuple) : Prop :=
  st.createsCheckpoint opts tracePos es = true →
    Covers opts (st.source opts tracePos es) ∧
      (st.source opts tracePos es).1 ≤ opts.costCp + furtherCosts (st.source opts tracePos es).2 + 2

instance (opts : HopOptions) (st : HopState) (p : ℕ) (es : List TraceEventTuple) :
    Decidable (st.InRange opts p es) :=
  inferInstanceAs (Decidable (_ → _))

instance (opts : HopOptions) (st : HopState) (p : ℕ) (es : List TraceEventTuple) :
    Decidable (st.Accurate opts p es) :=
  inferInstanceAs (Decidable (_ → _))

/-- All stored chains are long enough for the look. -/
def HopState.LongChains (opts : HopOptions) (st : HopState) : Prop :=
  ∀ pair ∈ st.checkpoints, opts.rollbackThresh < pair.2.length

theorem lookBehinds_stored {cps : List (ℕ × List ResultTuple)} {lastPos : ℕ} {bestTe : TraceEventTuple}
    {fuel : ℕ} {chain record : List ResultTuple} (h : record ∈ lookBehinds opts cps lastPos bestTe fuel chain) :
    ∃ pair ∈ cps, record = pair.2.reverse := by
  induction fuel generalizing chain with
  | zero => cases chain <;> simp [lookBehinds] at h
  | succ fuel ih =>
    match chain, h with
    | [], h => simp [lookBehinds] at h
    | [last], h =>
      rw [lookBehinds] at h
      split at h
      · split at h
        · simp at h
        · rename_i pair hpair
          split at h
          · simp at h
          · rename_i preLast older hrecord
            rcases List.mem_cons.mp h with rfl | h
            · exact ⟨pair, List.mem_of_getElem? hpair, hrecord.symm⟩
            · -- further looks are those of the restored chain
              repeat (split at h; · simp at h)
              exact ih h
      · simp at h
    | last :: preLast :: rest, h =>
      rw [lookBehinds] at h
      split at h
      · simp at h
      · split at h
        · split at h
          · simp at h
          · exact ih h
        · exact ih h

theorem HopState.LongChains.inRange (h : st.LongChains opts) : st.InRange opts p es := by
  intro _ bestTe _ record hrecord
  obtain ⟨pair, hpair, rfl⟩ := lookBehinds_stored hrecord
  rw [List.length_reverse]
  exact h pair hpair

/-- **What is stored for a new checkpoint is long enough**: it is too expensive for a shorter chain, as no hop
costs more than 2. -/
theorem HopState.LongChains.step (hopts : opts.Accepted) (hlong : st.LongChains opts)
    (haccurate : st.Accurate opts p es) (h : processPosition opts st p es = some st') : st'.LongChains opts := by
  rcases processPosition_eq_some h with ⟨-, -, -, hcps, -⟩ |
    ⟨hfound, bestTe, back, older, costs, forbidden, hbest, hdelete,
      ⟨hcreates, ⟨huse, hexpensive⟩, hcps, -⟩ | ⟨-, -, hcps, -⟩⟩
  · rwa [HopState.LongChains, hcps]
  · obtain ⟨hcost, hrollback, hthresh⟩ := hopts huse
    obtain ⟨hcovers, hhigh⟩ := haccurate hcreates
    have hcosts := (shortens_source hfound hbest hdelete).costs hcovers
    have hfurther := furtherCosts_le (back :: older).reverse
    have hmod := Nat.mod_le (costs + hopCosts back.1 bestTe) (2 ^ 32)
    have hhop := hopCosts_le back.1 bestTe
    rw [HopState.LongChains, hcps]
    refine List.forall_mem_append.mpr ⟨hlong, List.forall_mem_singleton.mpr ?_⟩
    rw [List.length_reverse, List.length_cons] at hfurther ⊢
    dsimp only at hcosts hfurther ⊢
    omega
  · rwa [HopState.LongChains, hcps]

/-- **The look behind a checkpoint stays within the stored chain**, in every run whose costs are accurate enough
whenever a checkpoint is created. -/
theorem look_behind_in_range (w : ℕ) (events : List TraceEvent) (numInst : ℕ) (hopts : opts.Accepted)
    (haccurate : AllSteps opts (HopState.Accurate opts)
      ((TraceReader.openTraceFile events numInst).deliveries w (events.length + 2)) {}) :
    AllSteps opts (HopState.InRange opts)
      ((TraceReader.openTraceFile events numInst).deliveries w (events.length + 2)) {} := by
  have hinit : HopState.LongChains opts {} := List.forall_mem_nil _
  refine AllSteps.of_invariant (fun hlong _ haccurate => ⟨hlong.inRange, fun st' hst' => ?_⟩)
    (plain_of_deliveries w _ _)
    hinit haccurate
  exact hlong.step hopts haccurate hst'

/-- A checkpoint that is created and deleted with exact costs. -/
theorem look_behind_in_range_spinTrace : spinOptions.Accepted ∧
    AllSteps spinOptions (HopState.InRange spinOptions)
    ((TraceReader.openTraceFile spinTrace).deliveries 32 7) {} := by
  have haccepted : spinOptions.Accepted := fun _ => by decide
  exact ⟨haccepted, look_behind_in_range 32 spinTrace _ haccepted (by decide +kernel)⟩

/-- Two instructions. -/
def rollbackTrace : List TraceEvent :=
  [{ ip := 10 }, { ip := 20 }, { ip := 10 }, { ip := 10 }, { ip := 10 }, { ip := 20 }, { ip := 10 }]

/-- Free checkpoints behind every fourth hop. -/
def rollbackOptions : HopOptions :=
  { useWatchpoints := false, useWeights := false, useCheckpoints := true, cpThresh := 4, costCp := 0,
    rollbackThresh := 1 }

/-- **The look leaves the stored chain**: with the costs that stay behind when a checkpoint is deleted, the next
one is created too early, and there is only one hop to look at. -/
theorem look_behind_out_of_range : rollbackOptions.Accepted ∧
    ¬ AllSteps rollbackOptions (HopState.InRange rollbackOptions)
      ((TraceReader.openTraceFile rollbackTrace).deliveries 32 9) {} ∧
    (calculateAllHops 32 rollbackOptions (.openTraceFile rollbackTrace)).2 = false := by
  refine ⟨fun _ => by decide, ?_, ?_⟩
  · decide +kernel
  · decide +kernel

/-! ## References to checkpoints -/

/-- The checkpoints a chain refers to are among the first `n`. -/
def RefersBelow (n : ℕ) (chain : List ResultTuple) : Prop :=
  ∀ hop ∈ chain, hop.1.2 = .checkpoint → hop.1.1 < n

/-- **All references lead to earlier checkpoints.** -/
structure HopState.Resolved (st : HopState) : Prop where
  nextId : st.nextCpId = st.checkpoints.length % 2 ^ 32
  result : RefersBelow st.checkpoints.length st.result
  stored : ∀ i pair, st.checkpoints[i]? = some pair → pair.2 ≠ [] ∧ RefersBelow i pair.2

theorem RefersBelow.mono {m n : ℕ} {chain : List ResultTuple} (h : RefersBelow m chain) (hle : m ≤ n) :
    RefersBelow n chain :=
  fun hop hhop hcp => (h hop hhop hcp).trans_le hle

theorem refersBelow_of_plain {n : ℕ} {te : TraceEventTuple} (h : Plain te) (p : ℕ) :
    RefersBelow n [(te, p)] := by
  intro hop hhop hcp
  obtain rfl := List.mem_singleton.mp hhop
  exact absurd hcp h.1

theorem resolved_init : HopState.Resolved {} where
  nextId := rfl
  result hop hhop := absurd hhop List.not_mem_nil
  stored i pair hpair := by simp at hpair

theorem HopState.Resolved.source (h : st.Resolved) :
    RefersBelow st.checkpoints.length (st.source opts p es).2 := by
  rcases List.mem_cons.mp (st.source_mem opts p es) with hsource | hsource
  · rw [hsource]
    exact h.result
  · obtain ⟨i, hi, heq⟩ := List.mem_iff_getElem.mp hsource
    have hget : st.checkpoints[i]? = some (st.source opts p es) := by rw [List.getElem?_eq_getElem hi, heq]
    exact (h.stored i _ hget).2.mono hi.le

/-- **A position keeps the references resolved.** -/
theorem HopState.Resolved.step (hresolved : st.Resolved) (hplain : ∀ te ∈ es, Plain te)
    (h : processPosition opts st p es = some st') : st'.Resolved := by
  rcases processPosition_eq_some h with ⟨hfound, hresult, -, hcps, hid⟩ |
    ⟨hfound, bestTe, back, older, costs, forbidden, hbest, hdelete, hcases⟩
  · obtain ⟨-, te, hte, hsingle⟩ := (select_costs opts st p es).2 hfound
    rw [hsingle] at hresult
    exact ⟨by rw [hid, hcps, hresolved.nextId], hresult ▸ refersBelow_of_plain (hplain te hte) p,
      hcps ▸ hresolved.stored⟩
  · have hremaining : RefersBelow st.checkpoints.length (back :: older).reverse := fun hop hhop =>
      hresolved.source hop ((shortens_source hfound hbest hdelete).front.subset hhop)
    rcases hcases with ⟨-, -, hcps, hid, -, hresult⟩ | ⟨-, -, hcps, hid, -, hresult⟩
    · have hlen : st'.checkpoints.length = st.checkpoints.length +
        1 := by rw [hcps, List.length_append, List.length_singleton]
      refine ⟨?_, ?_, fun i pair hpair => ?_⟩
      · rw [hid, hresolved.nextId, hlen, Nat.mod_add_mod]
      · -- the id is the index of the new pair, as far as it is an `unsigned int`
        intro hop hhop _
        rw [hresult] at hhop
        obtain rfl := List.mem_singleton.mp hhop
        rw [hlen, hresolved.nextId]
        exact Nat.lt_succ_of_le (Nat.mod_le _ _)
      · rw [hcps, List.getElem?_append] at hpair
        split at hpair
        · exact hresolved.stored i pair hpair
        · rename_i hi
          obtain ⟨-, rfl⟩ := List.getElem?_eq_some_iff.mp hpair
          rw [List.getElem_singleton]
          exact ⟨by simp, hremaining.mono (Nat.le_of_not_lt hi)⟩
    · refine ⟨by rw [hid, hcps, hresolved.nextId], ?_, hcps ▸ hresolved.stored⟩
      rw [hcps, hresult, ← List.reverse_cons]
      exact List.forall_mem_append.mpr
        ⟨hremaining, refersBelow_of_plain (hplain bestTe (bestTe_mem opts st p es bestTe hbest).1) p⟩

/-- A position is defined if the deletion of hops leaves one. -/
theorem isSome_of_deleteHops {bestTe : TraceEventTuple} {back : ResultTuple} {older : List ResultTuple}
    {costs : ℕ} {forbidden : Bool} (hfound : (st.select opts p es).hopFound = false)
    (hbest : (st.select opts p es).bestTe = some bestTe)
    (hdelete :
      deleteHops opts st.checkpoints (st.select opts p es).lastPos bestTe st.deletionFuel st.result.reverse
      st.costs = some (back :: older, costs, forbidden)) :
    ∃ st', processPosition opts st p es = some st' := by
  obtain ⟨hresult, hcosts⟩ := (select_costs opts st p es).1 hfound
  rw [processPosition, ← HopState.select, if_neg (by simp [hfound])]
  simp only [hresult, hcosts, hbest, Option.bind_eq_bind, Option.bind_some]
  change ∃ st', (deleteHops opts st.checkpoints (st.select opts p es).lastPos bestTe st.deletionFuel
    st.result.reverse st.costs).bind _ = some st'
  rw [hdelete, Option.bind_some, List.head?_cons, Option.bind_some]
  split
  · exact ⟨_, rfl⟩
  · exact ⟨_, rfl⟩

end FailStar
