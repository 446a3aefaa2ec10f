import FailStar.SmartHops.TraceReader

/-! # The hop calculator

`SmartHops` and the offline tool's `SmartAlgorithm` compute, position by position, a chain of
breakpoints and watchpoints that leads to the current position of a trace. Both contain the same
algorithm; here it is one function with the options as a parameter.

* **`considerEvent`** — the loop over the events of a position: find a new event, or else the one with
  the smallest last position.
* **`deleteHops`** — the loop that deletes unnecessary hops, through checkpoints if there are any.
* **`processPosition`** — one position; `none` where the code's behaviour is undefined.
* **`SmartHops.calculateFollowingHop`**, **`calculateAllHops`** — the two users of the algorithm. -/

namespace FailStar

/-- `COST_CHANGE`. -/
def costChange : ℕ := 1

/-- `COST_NO_CHANGE`. -/
def costNoChange : ℕ := 2

/-- `result_tuple`: an event and the position where waiting for it stops. -/
abbrev ResultTuple := TraceEventTuple × ℕ

/-- The options of the algorithm: members of `SmartHops`, global variables of the offline tool. -/
structure HopOptions where
  useWatchpoints : Bool := true
  useWeights : Bool := true
  useCheckpoints : Bool := false
  cpThresh : ℕ := 0
  costCp : ℕ := 0
  rollbackThresh : ℕ := 0

/-- What the algorithm keeps from position to position. -/
structure HopState where
  /-- `m_last_positions`. -/
  lastPositions : TraceEventTuple → Option ℕ := fun _ => none
  /-- `m_checkpoints`: the costs and the chain at the time of every checkpoint. -/
  checkpoints : List (ℕ × List ResultTuple) := []
  /-- `m_next_cp_id`. -/
  nextCpId : ℕ := 0
  /-- `m_result`, the current chain. -/
  result : List ResultTuple := []
  /-- `m_costs`. -/
  costs : ℕ := 0

/-! ## Choosing an event -/

/-- The local variables of the loop over the events of a position. -/
structure Selection where
  lastPositions : TraceEventTuple → Option ℕ
  result : List ResultTuple
  costs : ℕ
  /-- `best_te`. -/
  bestTe : Option TraceEventTuple := none
  /-- `last_pos`. -/
  lastPos : ℕ := 2 ^ 32 - 1
  /-- `hop_found`. -/
  hopFound : Bool := false

/-- The event takes part in the calculation. -/
def HopOptions.considers (opts : HopOptions) (te : TraceEventTuple) : Bool :=
  opts.useWatchpoints || te.2 = .none

/-- One iteration of the loop over the events of a position. -/
def considerEvent (opts : HopOptions) (tracePos : ℕ) (sel : Selection) (te : TraceEventTuple) :
    Selection :=
  if opts.considers te then
    let lastPositions := Function.update sel.lastPositions te (some tracePos)
    match sel.lastPositions te with
    | none =>
      -- a new event is a single hop
      if sel.hopFound then { sel with lastPositions }
      else { sel with lastPositions, result := [(te, tracePos)], costs := costChange, hopFound := true }
    | some pos =>
      if pos < sel.lastPos then { sel with lastPositions, lastPos := pos, bestTe := some te }
      else { sel with lastPositions }
  else sel

/-! ## Deleting hops -/

/-- The costs of a hop to `te` behind a hop to `prev`. -/
def hopCosts (prev te : TraceEventTuple) : ℕ := if prev = te then costNoChange else costChange

/-- The conditions under which the deletion loop stops in front of the hop `preLast`. -/
def stopsAt (opts : HopOptions) (lastPos : ℕ) (bestTe : TraceEventTuple) (preLast : ResultTuple) : Bool :=
  (!opts.useWeights && !(decide (lastPos ≤ preLast.2))) ||
    (opts.useWeights && !(decide (lastPos < preLast.2))) ||
    (decide (lastPos = preLast.2) && decide (preLast.1 ≠ bestTe))

/-- **The deletion loop**, on the chain in reverse (`rit_last` is the head): the remaining chain in
reverse, its costs, and `checkpoint_forbidden`. An index outside of a vector is undefined. -/
def deleteHops (opts : HopOptions) (checkpoints : List (ℕ × List ResultTuple)) (lastPos : ℕ)
    (bestTe : TraceEventTuple) :
    ℕ → List ResultTuple → ℕ → Option (List ResultTuple × ℕ × Bool)
  | _, [], costs => some ([], costs, false)
  | 0, _ :: _, _ => none
  | fuel + 1, [last], costs =>
    if last.1.2 = .checkpoint then
      -- the first node is a checkpoint: look at the result before its creation
      match checkpoints[last.1.1]? with
      | none => none
      | some (cpCosts, record) =>
        match record.reverse with
        | [] => some ([last], costs, false)
        | preLast :: older =>
          match (preLast :: older)[opts.rollbackThresh]? with
          | none => none
          | some hop =>
            if hop.2 < lastPos then some ([last], costs, true)
            else if stopsAt opts lastPos bestTe preLast then some ([last], costs, false)
            else deleteHops opts checkpoints lastPos bestTe fuel (preLast :: older) cpCosts
    else some ([last], costs, false)
  | fuel + 1, last :: preLast :: rest, costs =>
    if stopsAt opts lastPos bestTe preLast then some (last :: preLast :: rest, costs, false)
    else if last.1.2 = .checkpoint then
      match checkpoints[last.1.1]? with
      | none => none
      | some (cpCosts, record) =>
        deleteHops opts checkpoints lastPos bestTe fuel record.reverse cpCosts
    else
      deleteHops opts checkpoints lastPos bestTe fuel (preLast :: rest)
        ((costs + 2 ^ 32 - hopCosts preLast.1 last.1) % 2 ^ 32)

/-- Enough iterations for the deletion loop: every hop of the chain and of every checkpoint's chain can
be deleted once. -/
def HopState.deletionFuel (st : HopState) : ℕ :=
  st.result.length + (st.checkpoints.map fun cp => cp.2.length + 1).sum + 1

/-- **The body of the main loop**: process the events of one position. -/
def processPosition (opts : HopOptions) (st : HopState) (tracePos : ℕ)
    (traceEvents : List TraceEventTuple) : Option HopState :=
  let sel := traceEvents.foldl (considerEvent opts tracePos)
    { lastPositions := st.lastPositions, result := st.result, costs := st.costs }
  let st := { st with lastPositions := sel.lastPositions, result := sel.result, costs := sel.costs }
  if sel.hopFound then some st
  else do
    let bestTe ← sel.bestTe
    let (remaining, costs, checkpointForbidden) ←
      deleteHops opts st.checkpoints sel.lastPos bestTe st.deletionFuel st.result.reverse st.costs
    let back ← remaining.head?
    let costs := (costs + hopCosts back.1 bestTe) % 2 ^ 32
    if opts.useCheckpoints && decide (opts.cpThresh < costs) && !checkpointForbidden then
      some { st with
        checkpoints := st.checkpoints ++ [(costs, remaining.reverse)]
        nextCpId := (st.nextCpId + 1) % 2 ^ 32
        result := [((st.nextCpId, .checkpoint), tracePos)]
        costs := opts.costCp }
    else some { st with result := remaining.reverse ++ [(bestTe, tracePos)], costs }

/-! ## Messages -/

/-- `InjectionPointMessage_Hops_AccessType`. -/
inductive HopAccessType
  | execute
  | read
  | write
  deriving DecidableEq, Repr

/-- `InjectionPointMessage` of a build with hop chains. -/
structure InjectionPointMessage where
  /-- `costs`. -/
  costs : Option ℕ := none
  /-- `checkpoint_id`. -/
  checkpointId : Option ℕ := none
  /-- `target_trace_position`. -/
  targetTracePosition : Option ℕ := none
  /-- `hops`: address and access type. -/
  hops : List (ℕ × HopAccessType) := []
  deriving DecidableEq, Repr

/-- The hop of a message for an event of the chain; the program exits on other access types. -/
def convertHop (hop : ResultTuple) : Option (ℕ × HopAccessType) :=
  match hop.1.2 with
  | .none => some (hop.1.1, .execute)
  | .read => some (hop.1.1, .read)
  | .write => some (hop.1.1, .write)
  | .readOrWrite => none
  | .checkpoint => none

/-- The checkpoint at the beginning of a chain, if there is one, and the hops. -/
def splitCheckpoint : List ResultTuple → Option ℕ × List ResultTuple
  | [] => (none, [])
  | hop :: rest => if hop.1.2 = .checkpoint then (some hop.1.1, rest) else (none, hop :: rest)

/-- The `target_trace_position` of a chain. -/
def targetPosition (result : List ResultTuple) : ℕ :=
  match result.getLast? with
  | none => 0
  | some hop => if hop.1.2 ≠ .checkpoint then hop.2 else 0

/-- `convertToIPM(result, costs, ipm)`. -/
def convertToIPM (result : List ResultTuple) (costs : ℕ) : Option InjectionPointMessage :=
  ((splitCheckpoint result).2.mapM convertHop).map fun hops =>
    { costs := some costs
      checkpointId := (splitCheckpoint result).1
      targetTracePosition := some (targetPosition result)
      hops }

/-! ## SmartHops -/

/-- `SmartHops`; its options are fixed. -/
structure SmartHops where
  /-- `m_trace_pos`. -/
  tracePos : ℕ := 0
  /-- `m_trace_reader`. -/
  traceReader : TraceReader
  /-- `m_trace_events`. -/
  traceEvents : List TraceEventTuple := []
  /-- The state of the algorithm. -/
  state : HopState := {}

namespace SmartHops

/-- The options `SmartHops` is constructed with. -/
def options : HopOptions := {}

/-- `init(filename)` on a trace file with the given events. -/
def init (events : List TraceEvent) : SmartHops := { traceReader := .openTraceFile events }

/-- The main loop `while (m_trace_pos < instruction_offset)`: whether the trace was long enough, and the
state after. Every iteration increases `m_trace_pos`, so `instruction_offset` iterations suffice. -/
def advance (w instructionOffset : ℕ) : ℕ → SmartHops → Option (Bool × SmartHops)
  | fuel, sh =>
    if sh.tracePos < instructionOffset then
      match fuel with
      | 0 => none
      | fuel + 1 =>
        let (found, tracePos, traceEvents, traceReader) :=
          sh.traceReader.getNextTraceEvents w sh.tracePos sh.traceEvents
        let sh := { sh with tracePos, traceEvents, traceReader }
        if found then
          (processPosition options sh.state tracePos traceEvents).bind fun state =>
            advance w instructionOffset fuel { sh with state }
        else some (false, sh)
    else some (true, sh)

/-- `calculateFollowingHop(ip, instruction_offset)`: the message if the call returns `true`, and the
calculator after the call. -/
def calculateFollowingHop (w : ℕ) (sh : SmartHops) (instructionOffset : ℕ) :
    Option (Option InjectionPointMessage × SmartHops) :=
  if instructionOffset = 0 then
    let sh := { sh with state := { sh.state with result := [], costs := 0 } }
    (convertToIPM sh.state.result sh.state.costs).map fun ip => (some ip, sh)
  else
    (advance w instructionOffset instructionOffset sh).bind fun (found, sh) =>
      if found then (convertToIPM sh.state.result sh.state.costs).map fun ip => (some ip, sh)
      else some (none, sh)

end SmartHops

/-! ## SmartAlgorithm -/

/-- The loop of `calculateAllHops`: the results passed to `addResult` with their costs, and whether the
end of the trace was reached without undefined behaviour. -/
def allHops (w : ℕ) (opts : HopOptions) :
    ℕ → TraceReader → ℕ → List TraceEventTuple → HopState → List (List ResultTuple × ℕ) × Bool
  | 0, _, _, _, _ => ([], false)
  | fuel + 1, trace, tracePos, traceEvents, st =>
    let (found, tracePos, traceEvents, trace) := trace.getNextTraceEvents w tracePos traceEvents
    if found then
      match processPosition opts st tracePos traceEvents with
      | none => ([], false)
      | some st =>
        let (results, done) := allHops w opts fuel trace tracePos traceEvents st
        ((st.result, st.costs) :: results, done)
    else ([], true)

/-- `SmartAlgorithm::calculateAllHops(trace)`. Every iteration takes an event out of the stream. -/
def calculateAllHops (w : ℕ) (opts : HopOptions) (trace : TraceReader) :
    List (List ResultTuple × ℕ) × Bool :=
  allHops w opts (trace.stream.length + 2) trace 0 [] {}

end FailStar
