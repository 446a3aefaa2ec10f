import FailStar.SmartHops.Rollback

/-! # The checkpoint file

The offline tool writes a line with an id and a position for every checkpoint it creates, and the chains refer to
checkpoints by their id. The ids of the chains are counted by the algorithm, from 0 on, and are indices into its
vector of checkpoints. Those of the file are counted by the result collector, from 1 on.

* **`ResultCollector`** — the chains and the checkpoint file; **`CheckpointRun`** — a run with its collector, and
  what it has created so far.
* **`CheckpointRun.Recorded`**, **`run_recorded`** — what the three counters say about what was created.
* **`references_resolve_iff`** — an id of a chain is one less than that in the file, so references resolve if and
  only if there are none. -/

namespace FailStar

variable {opts : HopOptions} {st st' : HopState} {p : ℕ} {es : List TraceEventTuple}
  {ds : List (ℕ × List TraceEventTuple)}

/-! ## The result collector -/

/-- `calculate_costs(res)`: the costs of a chain of hops. -/
def calculateCosts : List ResultTuple → ℕ
  | [] => costChange
  | hop :: res => (costChange + costBehind hopCosts hop.1 res) % 2 ^ 32

/-- `ResultCollector`. -/
structure ResultCollector where
  /-- The chains that were added, with their costs. -/
  results : List (List ResultTuple × ℕ) := []
  /-- `m_checkpoint_count`. -/
  checkpointCount : ℕ := 1
  /-- The lines written to `g_cp_ofstream`. -/
  cpLines : List (ℕ × ℕ) := []

/-- `addResult(res, costs)`. -/
def ResultCollector.addResult (rc : ResultCollector) (res : List ResultTuple) (costs : ℕ) : ResultCollector :=
  { rc with results := rc.results ++ [(res, if costs = 0 then calculateCosts res else costs)] }

/-- `addCheckpoint(pos)`. -/
def ResultCollector.addCheckpoint (rc : ResultCollector) (pos : ℕ) : ResultCollector :=
  { rc with
    cpLines := rc.cpLines ++ [(rc.checkpointCount, pos)]
    checkpointCount := (rc.checkpointCount + 1) % 2 ^ 32 }

/-! ## Runs -/

/-- The chain that is left when the deletion loop ends: the one from before a new checkpoint. -/
def HopState.kept (opts : HopOptions) (st : HopState) (tracePos : ℕ) (es : List TraceEventTuple) :
    List ResultTuple :=
  let sel := st.select opts tracePos es
  let remaining : Option (List ResultTuple) := do
    let bestTe ← sel.bestTe
    let (remaining, _, _) ←
      deleteHops opts st.checkpoints sel.lastPos bestTe st.deletionFuel st.result.reverse st.costs
    some remaining.reverse
  remaining.getD []

/-- A checkpoint that was created: its id in the chains, its position in the trace, and the chain from before. -/
structure Creation where
  id : ℕ
  position : ℕ
  chain : List ResultTuple
  deriving DecidableEq, Repr

/-- A run of the algorithm with its collector. The number of positions and the checkpoints created so far are
kept in addition, to say what the counters should be. -/
structure CheckpointRun where
  state : HopState := {}
  collector : ResultCollector := {}
  position : ℕ := 0
  created : List Creation := []

namespace CheckpointRun

/-- What a position adds to a run that goes on in state `st`. -/
def proceed (opts : HopOptions) (run : CheckpointRun) (tracePos : ℕ) (es : List TraceEventTuple)
    (st : HopState) :
    CheckpointRun :=
  let creates := run.state.createsCheckpoint opts tracePos es
  let collector := if creates then run.collector.addCheckpoint tracePos else run.collector
  { state := st
    collector := collector.addResult st.result st.costs
    position := run.position + 1
    created :=
      if creates then
        run.created ++ [⟨run.state.nextCpId, run.position + 1, run.state.kept opts tracePos es⟩]
      else run.created }

/-- `calculateAllHops` over what the reader delivers, with its collector. -/
def runAll (opts : HopOptions) : List (ℕ × List TraceEventTuple) → CheckpointRun → CheckpointRun
  | [], run => run
  | (tracePos, es) :: ds, run =>
    match processPosition opts run.state tracePos es with
    | none => run
    | some st => runAll opts ds (run.proceed opts tracePos es st)

/-- The collector gets what the algorithm emits. -/
theorem runAll_results (opts : HopOptions) (ds : List (ℕ × List TraceEventTuple)) (run : CheckpointRun) :
    (runAll opts ds run).collector.results.map Prod.fst =
      run.collector.results.map Prod.fst ++ (emitHops opts ds run.state).map Prod.fst := by
  induction ds generalizing run with
  | nil => simp [runAll, emitHops]
  | cons d ds ih =>
    rw [runAll, emitHops]
    cases processPosition opts run.state d.1 d.2 with
    | none => simp
    | some st =>
      dsimp only
      rw [ih]
      cases hcreates : run.state.createsCheckpoint opts d.1 d.2 <;>
        simp [proceed, hcreates, ResultCollector.addResult, ResultCollector.addCheckpoint]

end CheckpointRun

/-! ## The counters -/

/-- A position creates a checkpoint for the chain it keeps, or none. -/
theorem createsCheckpoint_cases (h : processPosition opts st p es = some st') :
    st.createsCheckpoint opts p es = true ∧ st'.result = [((st.nextCpId, .checkpoint), p)] ∧
        st'.checkpoints.map Prod.snd = st.checkpoints.map Prod.snd ++ [st.kept opts p es] ∨
      st.createsCheckpoint opts p es = false ∧ st'.checkpoints = st.checkpoints := by
  rcases processPosition_eq_some h with ⟨hfound, -, -, hcps, -⟩ |
    ⟨-, bestTe, back, older, costs, forbidden, hbest, hdelete,
      ⟨hcreates, -, hcps, -, -, hresult⟩ | ⟨hcreates, -, hcps, -⟩⟩
  · refine Or.inr ⟨?_, hcps⟩
    simp only [HopState.createsCheckpoint, hfound, Bool.not_true, Bool.false_and]
  · have hkept : st.kept opts p es = (back :: older).reverse := by
      simp only [HopState.kept, hbest, hdelete, Option.bind_eq_bind, Option.bind_some, Option.getD_some]
    exact Or.inl ⟨hcreates, hresult, by rw [hcps, List.map_append, List.map_singleton, hkept]⟩
  · exact Or.inr ⟨hcreates, hcps⟩

/-- A position that creates a checkpoint is defined. -/
theorem isSome_of_createsCheckpoint (h : st.createsCheckpoint opts p es = true) :
    ∃ st', processPosition opts st p es = some st' := by
  unfold HopState.createsCheckpoint at h
  simp only [Bool.and_eq_true, Bool.not_eq_true'] at h
  obtain ⟨hfound, hneeded⟩ := h
  cases hbest : (st.select opts p es).bestTe with
  | none => simp [hbest] at hneeded
  | some bestTe =>
    simp only [hbest, Option.bind_eq_bind, Option.bind_some] at hneeded
    cases hdelete : deleteHops opts st.checkpoints (st.select opts p es).lastPos bestTe st.deletionFuel
        st.result.reverse st.costs with
    | none => simp [hdelete] at hneeded
    | some left =>
      obtain ⟨_ | ⟨back, older⟩, costs, forbidden⟩ := left
      · simp [hdelete] at hneeded
      · exact isSome_of_deleteHops hfound hbest hdelete

namespace CheckpointRun

/-- **What the counters say about the checkpoints created so far.** -/
structure Recorded (run : CheckpointRun) : Prop where
  resolved : run.state.Resolved
  stored : run.state.checkpoints.map Prod.snd = run.created.map Creation.chain
  ids : ∀ i cp, run.created[i]? = some cp → cp.id = i % 2 ^ 32
  count : run.collector.checkpointCount = (run.created.length + 1) % 2 ^ 32
  lines : run.collector.cpLines = run.created.mapIdx fun i cp => ((i + 1) % 2 ^ 32, cp.position % 2 ^ 32)
  increasing : run.created.Pairwise fun cp cp' => cp.position < cp'.position
  past : ∀ cp ∈ run.created, cp.position ≤ run.position
  emitted : ∀ cp ∈ run.created,
    [((cp.id, .checkpoint), cp.position % 2 ^ 32)] ∈ run.collector.results.map Prod.fst
  refers : ∀ res ∈ run.collector.results.map Prod.fst, RefersBelow run.created.length res

theorem recorded_init : Recorded {} where
  resolved := resolved_init
  stored := rfl
  ids i cp hcp := by simp at hcp
  count := rfl
  lines := rfl
  increasing := List.Pairwise.nil
  past cp hcp := absurd hcp List.not_mem_nil
  emitted cp hcp := absurd hcp List.not_mem_nil
  refers res hres := absurd hres List.not_mem_nil

variable {run : CheckpointRun}

theorem Recorded.length_eq (h : run.Recorded) : run.state.checkpoints.length = run.created.length := by
  rw [← List.length_map (f := Prod.snd), h.stored, List.length_map]

theorem Recorded.proceed (h : run.Recorded) (hplain : ∀ te ∈ es, Plain te) (hp : p = (run.position + 1) % 2 ^ 32)
    (hst : processPosition opts run.state p es = some st) : (run.proceed opts p es st).Recorded := by
  have hresolved := h.resolved.step hplain hst
  rcases createsCheckpoint_cases hst with ⟨hcreates, hresult, hcps⟩ | ⟨hcreates, hcps⟩
  · have hid : run.state.nextCpId = run.created.length % 2 ^ 32 := by rw [h.resolved.nextId, h.length_eq]
    have hlen : st.checkpoints.length = run.created.length + 1 := by
      have hmap := congrArg List.length hcps
      rw [List.length_map, List.length_append, List.length_map, List.length_singleton, h.length_eq] at hmap
      exact hmap
    have hrefers := hresolved.result
    rw [hlen] at hrefers
    simp only [CheckpointRun.proceed, hcreates, if_true, ResultCollector.addResult,
      ResultCollector.addCheckpoint]
    refine ⟨hresolved, ?_, fun i cp hcp => ?_, ?_, ?_, ?_, ?_, ?_, ?_⟩
    · rw [hcps, h.stored, List.map_append, List.map_singleton]
    · -- the old checkpoints keep their places, and the new one is the last
      rcases Nat.lt_or_ge i run.created.length with hi | hi
      · rw [List.getElem?_append_left hi] at hcp
        exact h.ids i cp hcp
      · rw [List.getElem?_append_right hi] at hcp
        have hlast : i - run.created.length < 1 := (List.getElem?_eq_some_iff.mp hcp).1
        obtain rfl := List.mem_singleton.mp (List.mem_of_getElem? hcp)
        obtain rfl : i = run.created.length := by omega
        exact hid
    · rw [h.count, List.length_append, List.length_singleton, Nat.mod_add_mod]
    · rw [h.lines, h.count, List.mapIdx_append, List.mapIdx_singleton, Nat.zero_add, ← hp]
    · refine List.pairwise_append.mpr ⟨h.increasing, List.pairwise_singleton _ _, fun cp hcp cp' hcp' => ?_⟩
      obtain rfl := List.mem_singleton.mp hcp'
      exact Nat.lt_succ_of_le (h.past cp hcp)
    · exact List.forall_mem_append.mpr
        ⟨fun cp hcp => Nat.le_succ_of_le (h.past cp hcp), List.forall_mem_singleton.mpr le_rfl⟩
    · rw [List.map_append, List.map_singleton]
      refine List.forall_mem_append.mpr ⟨fun cp hcp => List.mem_append_left _ (h.emitted cp hcp), ?_⟩
      refine List.forall_mem_singleton.mpr (List.mem_append_right _ ?_)
      rw [hresult, ← hp]
      exact List.mem_singleton_self _
    · rw [List.map_append, List.map_singleton, List.length_append, List.length_singleton]
      exact List.forall_mem_append.mpr
        ⟨fun res hres => (h.refers res hres).mono (Nat.le_succ _), List.forall_mem_singleton.mpr hrefers⟩
  · -- without a new checkpoint only the position and the emitted chains change
    have hrefers := hresolved.result
    rw [hcps, h.length_eq] at hrefers
    simp only [CheckpointRun.proceed, hcreates, Bool.false_eq_true, if_false, ResultCollector.addResult]
    refine ⟨hresolved, hcps ▸ h.stored, h.ids, h.count, h.lines, h.increasing, ?_, ?_, ?_⟩
    · exact fun cp hcp => Nat.le_succ_of_le (h.past cp hcp)
    · rw [List.map_append]
      exact fun cp hcp => List.mem_append_left _ (h.emitted cp hcp)
    · rw [List.map_append, List.map_singleton]
      exact List.forall_mem_append.mpr ⟨h.refers, List.forall_mem_singleton.mpr hrefers⟩

/-- **All positions of a run keep the record.** -/
theorem run_recorded (h : run.Recorded) (hplain : ∀ d ∈ ds, ∀ te ∈ d.2, Plain te)
    (hpositions : ∀ i d, ds[i]? = some d → d.1 = (run.position + 1 + i) % 2 ^ 32) :
    (runAll opts ds run).Recorded := by
  induction ds generalizing run with
  | nil => exact h
  | cons d ds ih =>
    obtain ⟨hes, hds⟩ := List.forall_mem_cons.mp hplain
    rw [runAll]
    cases hst : processPosition opts run.state d.1 d.2 with
    | none => exact h
    | some st =>
      refine ih (h.proceed hes (hpositions 0 d rfl) hst) hds fun i d' hd' => ?_
      have hnext : (run.proceed opts d.1 d.2 st).position = run.position + 1 := rfl
      rw [hnext, hpositions (i + 1) d' hd', Nat.add_assoc _ 1 i, Nat.add_comm 1 i]

/-- **A run creates nothing** if and only if none of its positions does. -/
theorem created_eq_nil_iff :
    (runAll opts ds run).created = [] ↔
      run.created = [] ∧ AllSteps opts (fun st p es => st.createsCheckpoint opts p es = false) ds run.state := by
  induction ds generalizing run with
  | nil => simp [runAll, AllSteps]
  | cons d ds ih =>
    rw [runAll, AllSteps]
    cases hst : processPosition opts run.state d.1 d.2 with
    | none =>
      have hcreates : run.state.createsCheckpoint opts d.1 d.2 = false := by
        by_contra htrue
        obtain ⟨st, hst'⟩ := isSome_of_createsCheckpoint (Bool.eq_true_of_not_eq_false htrue)
        exact absurd (hst.symm.trans hst') (by simp)
      simp [hcreates]
    | some st =>
      have hstate : (run.proceed opts d.1 d.2 st).state = st := rfl
      simp only [ih, hstate, Option.mem_some_iff, forall_eq']
      cases hcreates : run.state.createsCheckpoint opts d.1 d.2 <;> simp [CheckpointRun.proceed, hcreates]

theorem Recorded.line_iff (h : run.Recorded) {line : ℕ × ℕ} :
    line ∈ run.collector.cpLines ↔
      ∃ i cp, run.created[i]? = some cp ∧ line = ((i + 1) % 2 ^ 32, cp.position % 2 ^ 32) := by
  rw [h.lines, List.mem_iff_getElem?]
  simp only [List.getElem?_mapIdx, Option.map_eq_some_iff]
  exact exists_congr fun i => exists_congr fun cp => and_congr_right fun _ => eq_comm

/-- Unique ids are indices. -/
theorem Recorded.length_le (h : run.Recorded) (hnodup : (run.created.map Creation.id).Nodup) :
    run.created.length ≤ 2 ^ 32 := by
  by_contra hlt
  rw [Nat.not_le] at hlt
  have hpos : 0 < run.created.length := Nat.zero_lt_of_lt hlt
  have hzero := h.ids 0 _ (List.getElem?_eq_getElem hpos)
  have hwrapped := h.ids (2 ^ 32) _ (List.getElem?_eq_getElem hlt)
  have hsame : (run.created.map Creation.id)[0]? = (run.created.map Creation.id)[2 ^ 32]? := by
    rw [List.getElem?_map, List.getElem?_map, List.getElem?_eq_getElem hpos, List.getElem?_eq_getElem hlt,
      Option.map_some, Option.map_some, hzero, hwrapped, Nat.mod_self, Nat.zero_mod]
  have hindex := (List.getElem?_inj (by rwa [List.length_map]) hnodup).mp hsame
  exact absurd hindex (Nat.two_pow_pos 32).ne

/-! ## References -/

/-- **References resolve**: ids are unique, and for every chain that begins with a checkpoint, the file has a
line with its id and position, and the vector has the chain from before its creation. -/
structure ReferencesResolve (run : CheckpointRun) : Prop where
  unique : (run.created.map Creation.id).Nodup
  resolves : ∀ res ∈ run.collector.results.map Prod.fst, ∀ hop ∈ res.head?, hop.1.2 = .checkpoint →
    ∃ cp ∈ run.created, cp.id = hop.1.1 ∧ (hop.1.1, cp.position) ∈ run.collector.cpLines ∧
      run.state.checkpoints[hop.1.1]?.map Prod.snd = some cp.chain

/-- What a reference has to resolve to, by index. -/
theorem ReferencesResolve.line (hresolve : ReferencesResolve run) (h : run.Recorded) {i : ℕ} {cp : Creation}
    (hcp : run.created[i]? = some cp) (hi : i < 2 ^ 32) : (i, cp.position) ∈ run.collector.cpLines := by
  have hlen := h.length_le hresolve.unique
  have hid := h.ids i cp hcp
  rw [Nat.mod_eq_of_lt hi] at hid
  obtain ⟨cp', hmem, hid', hline, -⟩ :=
    hresolve.resolves _ (h.emitted cp (List.mem_of_getElem? hcp)) _ rfl rfl
  -- only this checkpoint has the id
  obtain ⟨j, hj, rfl⟩ := List.mem_iff_getElem.mp hmem
  have hidj := h.ids j _ (List.getElem?_eq_getElem hj)
  rw [Nat.mod_eq_of_lt (hj.trans_le hlen)] at hidj
  obtain rfl : i = j := by
    rw [← hid, ← hidj]
    exact hid'.symm
  rw [List.getElem?_eq_getElem hj, Option.some.injEq] at hcp
  dsimp only at hline
  rwa [hcp, hid] at hline

/-- **No reference resolves**: the first checkpoint has the id 0, which is that of no line, unless there are so
many lines that the file's ids begin again; but then the second one has the position of the first. -/
theorem Recorded.created_eq_nil (h : run.Recorded) (hresolve : ReferencesResolve run) : run.created = [] := by
  by_contra hne
  have hlen := h.length_le hresolve.unique
  have hfirst := List.getElem?_eq_getElem (List.length_pos_iff.mpr hne)
  obtain ⟨i, cp, hcp, hline⟩ := h.line_iff.mp (hresolve.line h hfirst (Nat.two_pow_pos 32))
  obtain ⟨hzero, -⟩ := Prod.mk.inj hline
  have hi := (List.getElem?_eq_some_iff.mp hcp).1
  -- the ids of the file have begun again, so there is a second checkpoint
  have hsecond : 1 < run.created.length := by omega
  obtain ⟨j, cp', hcp', hline'⟩ :=
    h.line_iff.mp (hresolve.line h (List.getElem?_eq_getElem hsecond) (by decide))
  obtain ⟨hone, hpos⟩ := Prod.mk.inj hline'
  obtain ⟨hj, rfl⟩ := List.getElem?_eq_some_iff.mp hcp'
  obtain rfl : j = 0 := by omega
  have hless := List.pairwise_iff_getElem.mp h.increasing 0 1 hj hsecond Nat.one_pos
  have hle := Nat.mod_le run.created[0].position (2 ^ 32)
  omega

end CheckpointRun

/-- A run of the offline tool on a trace. -/
def checkpointRun (w : ℕ) (opts : HopOptions) (events : List TraceEvent) (numInst : ℕ) : CheckpointRun :=
  .runAll opts ((TraceReader.openTraceFile events numInst).deliveries w (events.length + 2)) {}

/-- Its chains are those of `calculateAllHops`. -/
theorem checkpointRun_results (w : ℕ) (events : List TraceEvent) (numInst : ℕ) :
    (checkpointRun w opts events numInst).collector.results.map Prod.fst =
      (calculateAllHops w opts (.openTraceFile events numInst)).1.map Prod.fst := by
  rw [checkpointRun, CheckpointRun.runAll_results, calculateAllHops_eq_emitHops]
  rfl

theorem checkpointRun_recorded (w : ℕ) (events : List TraceEvent) (numInst : ℕ) :
    (checkpointRun w opts events numInst).Recorded := by
  refine CheckpointRun.run_recorded CheckpointRun.recorded_init (plain_of_deliveries w _ _) fun i d hd => ?_
  exact TraceReader.deliveries_position rfl hd

/-- **When references resolve**: if and only if no checkpoint is ever created. -/
theorem references_resolve_iff (w : ℕ) (opts : HopOptions) (events : List TraceEvent) (numInst : ℕ) :
    (checkpointRun w opts events numInst).ReferencesResolve ↔
      AllSteps opts (fun st p es => st.createsCheckpoint opts p es = false)
        ((TraceReader.openTraceFile events numInst).deliveries w (events.length + 2)) {} := by
  have hrecorded : (checkpointRun w opts events numInst).Recorded := checkpointRun_recorded w events numInst
  have hnothing : (checkpointRun w opts events numInst).created = [] ↔ _ := CheckpointRun.created_eq_nil_iff
  constructor
  · intro hresolve
    exact (hnothing.mp (hrecorded.created_eq_nil hresolve)).2
  · intro hnone
    have hnil := hnothing.mpr ⟨rfl, hnone⟩
    refine ⟨by rw [hnil]; exact List.nodup_nil, fun res hres hop hhop hcp => ?_⟩
    -- no chain refers to one of no checkpoints
    have hlt := hrecorded.refers res hres hop (List.mem_of_mem_head? hhop) hcp
    rw [hnil] at hlt
    exact absurd hlt (Nat.not_lt_zero _)

/-- **The chain refers to checkpoint 0, and the file says 1.** -/
theorem checkpoint_ids_differ : spinOptions.Accepted ∧
    [((0, .checkpoint), 4)] ∈ (checkpointRun 32 spinOptions spinTrace 4).collector.results.map Prod.fst ∧
    (checkpointRun 32 spinOptions spinTrace 4).collector.cpLines = [(1, 4)] ∧
    ¬ (checkpointRun 32 spinOptions spinTrace 4).ReferencesResolve := by
  have hchain : [((0, .checkpoint), 4)] ∈
      (checkpointRun 32 spinOptions spinTrace 4).collector.results.map Prod.fst := by
    decide +kernel
  have hfile : (checkpointRun 32 spinOptions spinTrace 4).collector.cpLines = [(1, 4)] := by decide +kernel
  refine ⟨fun _ => by decide, hchain, hfile, fun hresolve => ?_⟩
  obtain ⟨cp, -, -, hline, -⟩ := hresolve.resolves _ hchain _ rfl rfl
  rw [hfile] at hline
  simp at hline

end FailStar
