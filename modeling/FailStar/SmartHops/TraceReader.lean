import FailStar.Trace.Event

/-! # Reading a trace position by position

`TraceReader` cuts the stream of trace events into *positions*, counted from 1: an instruction with all
memory accesses up to the next one. The first event of the stream is taken for an instruction whatever
it is.

* **`TraceReader.getNextTraceEvents`** — the reader, with its 32-bit position and one event lookahead.
* **`positions`** — what it reads, as a function of the stream.
* **`getNextTraceEvents_of_position`** — the reader delivers the positions one after the other.
* **`deliveries`** — whatever it delivers, also behind position `2 ^ 32`. -/

namespace FailStar

/-- `mem_access_type_e`. -/
inductive MemAccessType
  /-- `ACCESS_NONE`: the fetch of an instruction. -/
  | none
  | read
  | write
  | readOrWrite
  /-- `ACCESS_CHECKPOINT`: not an event; the first entry of a chain that starts at a checkpoint. -/
  | checkpoint
  deriving DecidableEq, Repr

/-- `trace_event_tuple_t`: an address and how it is accessed. -/
abbrev TraceEventTuple := ℕ × MemAccessType

/-- The events of one memory access, one for every byte. Addresses are narrowed to the `w` bits of
`address_t`. -/
def accessEvents (w : ℕ) (ev : TraceEvent) : List TraceEventTuple :=
  if ev.width.isSome then
    (List.range ev.getWidth).map fun i =>
      ((ev.getMemaddr + i) % 2 ^ w, if ev.getAccesstype = .read then .read else .write)
  else []

/-- The event of an instruction fetch. -/
def fetchEvent (w : ℕ) (ev : TraceEvent) : TraceEventTuple := (ev.ip % 2 ^ w, .none)

/-- The loop that reads possible memory accesses and the next instruction: the access events, the next
instruction if there is one, and the rest of the stream. -/
def readAccesses (w : ℕ) : List TraceEvent → List TraceEventTuple × Option TraceEvent × List TraceEvent
  | [] => ([], none, [])
  | ev :: stream =>
    if ev.hasMemaddr then
      let (traceEvents, next, rest) := readAccesses w stream
      (accessEvents w ev ++ traceEvents, next, rest)
    else ([], some ev, stream)

/-- `TraceReader`. -/
structure TraceReader where
  /-- What the stream has not delivered yet. -/
  stream : List TraceEvent
  /-- `ev`, if `ev_avail`: the instruction that was read ahead. -/
  ev : Option TraceEvent := none
  /-- `m_current_position`. -/
  currentPosition : ℕ := 1
  /-- `m_max_num_inst`; `0` stands for no limit. -/
  maxNumInst : ℕ := 0

namespace TraceReader

/-- `openTraceFile(filename, num_inst)` on a file with the given events. -/
def openTraceFile (events : List TraceEvent) (numInst : ℕ := 0) : TraceReader :=
  { stream := events, maxNumInst := numInst }

/-- `getNextTraceEvents(trace_pos, trace_events)`: whether there was another position, the two output
parameters and the reader after the call. -/
def getNextTraceEvents (w : ℕ) (r : TraceReader) (tracePos : ℕ) (traceEvents : List TraceEventTuple) :
    Bool × ℕ × List TraceEventTuple × TraceReader :=
  -- stop after a fixed number of instructions, if given
  if 0 < r.maxNumInst ∧ r.maxNumInst < r.currentPosition then (false, tracePos, traceEvents, r)
  else
    let (ev, stream) :=
      if r.currentPosition = 1 then (r.stream.head?, r.stream.tail) else (r.ev, r.stream)
    match ev with
    | none => (false, r.currentPosition, [], { r with stream, ev })
    | some ev =>
      let (accesses, next, rest) := readAccesses w stream
      (true, r.currentPosition, fetchEvent w ev :: accesses,
        { r with stream := rest, ev := next, currentPosition := (r.currentPosition + 1) % 2 ^ 32 })

end TraceReader

/-! ## Positions -/

/-- The accesses at the front of a stream, and the positions behind them. -/
def splitPositions (w : ℕ) : List TraceEvent → List TraceEventTuple × List (List TraceEventTuple)
  | [] => ([], [])
  | ev :: stream =>
    if ev.hasMemaddr then
      (accessEvents w ev ++ (splitPositions w stream).1, (splitPositions w stream).2)
    else ([], (fetchEvent w ev :: (splitPositions w stream).1) :: (splitPositions w stream).2)

/-- **The positions of a trace**, each with its events. -/
def positions (w : ℕ) : List TraceEvent → List (List TraceEventTuple)
  | [] => []
  | ev :: stream => (fetchEvent w ev :: (splitPositions w stream).1) :: (splitPositions w stream).2

/-- The positions that begin with an instruction that was read ahead. -/
def pendingPositions (w : ℕ) (ev : Option TraceEvent) (stream : List TraceEvent) :
    List (List TraceEventTuple) :=
  match ev with
  | none => []
  | some ev => positions w (ev :: stream)

theorem positions_of_instructions (w : ℕ) {events : List TraceEvent} (h : ∀ ev ∈ events, ev.hasMemaddr = false) :
    positions w events = events.map fun ev => [fetchEvent w ev] := by
  have hsplit : splitPositions w events = ([], events.map fun ev => [fetchEvent w ev]) := by
    induction events with
    | nil => rfl
    | cons ev events ih =>
      obtain ⟨hev, hevents⟩ := List.forall_mem_cons.mp h
      simp [splitPositions, hev, ih hevents]
  cases events with
  | nil => rfl
  | cons ev events =>
    obtain ⟨hev, hevents⟩ := List.forall_mem_cons.mp h
    simpa [splitPositions, hev, positions] using hsplit

/-- The loop reads the accesses at the front of the stream and one instruction ahead. -/
theorem readAccesses_eq (w : ℕ) (stream : List TraceEvent) :
    (readAccesses w stream).1 = (splitPositions w stream).1 ∧
      pendingPositions w (readAccesses w stream).2.1 (readAccesses w stream).2.2 =
        (splitPositions w stream).2 := by
  induction stream with
  | nil => exact ⟨rfl, rfl⟩
  | cons ev stream ih =>
    by_cases hmem : ev.hasMemaddr
    · rw [readAccesses, splitPositions, if_pos hmem, if_pos hmem]
      exact ⟨congrArg _ ih.1, ih.2⟩
    · rw [readAccesses, splitPositions, if_neg hmem, if_neg hmem]
      exact ⟨rfl, rfl⟩

namespace TraceReader

/-- The reader is about to deliver position `k + 1`, and `ps` are the positions from there on. -/
structure At (w : ℕ) (r : TraceReader) (k : ℕ) (ps : List (List TraceEventTuple)) : Prop where
  position : r.currentPosition = (k + 1) % 2 ^ 32
  pending : (if k = 0 then positions w r.stream else pendingPositions w r.ev r.stream) = ps

theorem at_openTraceFile (w : ℕ) (events : List TraceEvent) (numInst : ℕ) :
    (openTraceFile events numInst).At w 0 (positions w events) :=
  ⟨rfl, rfl⟩

variable {w k : ℕ} {r : TraceReader} {es : List TraceEventTuple} {ps : List (List TraceEventTuple)}

theorem At.not_stopped (h : r.At w k ps) (hmax : r.maxNumInst = 0 ∨ k < r.maxNumInst) :
    ¬ (0 < r.maxNumInst ∧ r.maxNumInst < r.currentPosition) := by
  have hle := Nat.mod_le (k + 1) (2 ^ 32)
  rw [h.position]
  omega

/-- The event and the stream the reader goes on with are those of its next positions. -/
theorem At.pending_eq (h : r.At w k ps) (hk : k + 1 ≤ 2 ^ 32) :
    pendingPositions w
      (if r.currentPosition = 1 then (r.stream.head?, r.stream.tail) else (r.ev, r.stream)).1
      (if r.currentPosition = 1 then (r.stream.head?, r.stream.tail) else (r.ev, r.stream)).2 = ps := by
  rw [← h.pending, h.position]
  by_cases hzero : k = 0
  · rw [if_pos (by omega), if_pos hzero]
    cases r.stream <;> rfl
  · rw [if_neg (by omega), if_neg hzero]

/-- **The reader delivers the next position**; the last one that it delivers before it starts again counts as
0. -/
theorem getNextTraceEvents_of_position (h : r.At w k (es :: ps)) (hk : k + 1 ≤ 2 ^ 32)
    (hmax : r.maxNumInst = 0 ∨ k < r.maxNumInst) (tracePos : ℕ) (traceEvents : List TraceEventTuple) :
    ∃ r', r.getNextTraceEvents w tracePos traceEvents = (true, (k + 1) % 2 ^ 32, es, r') ∧
      r'.At w (k + 1) ps ∧ r'.maxNumInst = r.maxNumInst := by
  have hpending := h.pending_eq hk
  rw [getNextTraceEvents, if_neg (h.not_stopped hmax)]
  generalize (if r.currentPosition = 1 then (r.stream.head?, r.stream.tail) else (r.ev, r.stream)) = next
    at hpending ⊢
  obtain ⟨ev, stream⟩ := next
  cases ev with
  | none => cases hpending
  | some ev =>
    obtain ⟨hes, hps⟩ := List.cons.inj hpending
    obtain ⟨haccesses, hrest⟩ := readAccesses_eq w stream
    refine ⟨_, Prod.ext rfl (Prod.ext ?_ (Prod.ext ?_ rfl)), ⟨?_, ?_⟩, rfl⟩
    · exact h.position
    · exact (congrArg _ haccesses).trans hes
    · rw [h.position, Nat.mod_add_mod]
    · rw [if_neg (Nat.succ_ne_zero k)]
      exact hrest.trans hps

/-! ## Whatever the reader delivers -/

/-- **A call delivers an instruction and accesses** under the reader's position, or nothing. -/
theorem getNextTraceEvents_cases (w : ℕ) (r : TraceReader) :
    (∃ ev stream r', r'.currentPosition = (r.currentPosition + 1) % 2 ^ 32 ∧ ∀ tracePos traceEvents,
        r.getNextTraceEvents w tracePos traceEvents =
          (true, r.currentPosition, fetchEvent w ev :: (readAccesses w stream).1, r')) ∨
      ∀ tracePos traceEvents, (r.getNextTraceEvents w tracePos traceEvents).1 = false := by
  unfold getNextTraceEvents
  split
  · exact Or.inr fun _ _ => rfl
  · generalize (if r.currentPosition = 1 then (r.stream.head?, r.stream.tail) else (r.ev, r.stream)) = next
    obtain ⟨ev, stream⟩ := next
    cases ev with
    | none => exact Or.inr fun _ _ => rfl
    | some ev => exact Or.inl ⟨ev, stream, _, rfl, fun _ _ => rfl⟩

/-- What the reader delivers in `fuel` calls: the positions as it counts them, and their events. -/
def deliveries (w : ℕ) : ℕ → TraceReader → List (ℕ × List TraceEventTuple)
  | 0, _ => []
  | fuel + 1, r =>
    let (found, tracePos, traceEvents, r) := r.getNextTraceEvents w 0 []
    if found then (tracePos, traceEvents) :: deliveries w fuel r else []

theorem length_deliveries_le (w fuel : ℕ) (r : TraceReader) : (deliveries w fuel r).length ≤ fuel := by
  induction fuel generalizing r with
  | zero => exact le_rfl
  | succ fuel ih =>
    rw [deliveries]
    dsimp only
    split
    · exact Nat.succ_le_succ (ih _)
    · exact Nat.zero_le _

/-- Positions are counted without gaps, in 32 bits. -/
theorem deliveries_position {fuel n : ℕ} (h : r.currentPosition = n % 2 ^ 32) {i : ℕ}
    {d : ℕ × List TraceEventTuple} (hd : (deliveries w fuel r)[i]? = some d) : d.1 = (n + i) % 2 ^ 32 := by
  induction fuel generalizing r n i with
  | zero => simp [deliveries] at hd
  | succ fuel ih =>
    rcases getNextTraceEvents_cases w r with ⟨ev, stream, r', hnext, hcall⟩ | hcall
    · simp only [deliveries, hcall, if_true] at hd
      cases i with
      | zero =>
        obtain rfl := Option.some.inj hd
        exact h
      | succ i =>
        rw [h, Nat.mod_add_mod] at hnext
        rw [ih hnext hd, Nat.add_assoc, Nat.add_comm 1 i]
    · simp [deliveries, hcall] at hd

theorem deliveries_lt {fuel : ℕ} (h : r.currentPosition < 2 ^ 32) : ∀ d ∈ deliveries w fuel r, d.1 < 2 ^ 32 := by
  induction fuel generalizing r with
  | zero => simp [deliveries]
  | succ fuel ih =>
    rcases getNextTraceEvents_cases w r with ⟨ev, stream, r', hnext, hcall⟩ | hcall
    · simp only [deliveries, hcall, if_true, List.forall_mem_cons]
      exact ⟨h, ih (hnext ▸ Nat.mod_lt _ (Nat.two_pow_pos 32))⟩
    · simp [deliveries, hcall]

end TraceReader

end FailStar
