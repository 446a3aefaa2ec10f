import FailStar.Foundations.Attempt
import FailStar.ImportTrace.Importer

/-! # The advanced memory importer

`AdvancedMemoryImporter` adds two columns to the rows of the `MemoryImporter`: the opcode of the accessing
instruction, and the outcomes of the conditional branches around it. As it has to look into the future for
them, it delays memory events until the trace has gone on far enough.

* **`Importer.tryBytes`** — the loop over all accessed bytes, with the state it leaves when an insertion fails.
  The results of delayed insertions are ignored.
* **`BranchHistory`** — the members of the subclass; **`insertDelayedEntries`** — the loop over the deque.
* **`AdvancedMemoryImporter.copyToDatabase`** — the import of a whole trace. -/

namespace FailStar.ImportTrace

/-! ## Insertions that may fail -/

namespace Importer

/-- `add_trace_event(begin, end, event, is_fake)`. A row is handed to the database in any case. -/
def tryTraceEvent (cfg : Config) (st : Importer) (left right : Margin) (event : TraceEvent) (isFake : Bool) :
    Importer × Bool :=
  if cfg.importWriteEcs = false ∧ event.getAccesstype = .write then (st, true)
  else
    let row := traceRow cfg left right event isFake
    ({ st with rows := st.rows ++ [row] }, cfg.insertMultiple st.rows row)

/-- One iteration of the loop over all accessed bytes. -/
def tryByte (cfg : Config) (matching : ℕ → Bool) (curtime instr : ℕ) (ev : TraceEvent) (width : ℕ)
    (st : Importer) (dataAddress : ℕ) : Importer × Bool :=
  if matching dataAddress then
    let (left, st) := st.getOpenEC dataAddress
    let right : Margin := { dyninstr := instr, ip := cfg.address ev.ip, time := curtime }
    -- skip zero-sized intervals
    if right.dyninstr < left.dyninstr then (st, true)
    else
      let (st, ok) :=
        st.tryTraceEvent cfg left right { ev with memaddr := some dataAddress, width := some width } false
      if ok then
        -- next interval must start at next instruction
        (st.newOpenEC dataAddress ((curtime + 1) % 2 ^ 64) ((instr + 1) % 2 ^ 32) (cfg.address ev.ip), true)
      else (st, false)
  else (st, true)

/-- The loop over all accessed bytes, from `lo` up to and without `hi`. -/
def tryBytes (cfg : Config) (matching : ℕ → Bool) (curtime instr : ℕ) (ev : TraceEvent) (width lo hi : ℕ)
    (st : Importer) : Importer × Bool :=
  foldUntil (tryByte cfg matching curtime instr ev width) st (List.range' lo (hi - lo))

variable {cfg : Config} {matching : ℕ → Bool}

theorem addTraceEvent_eq_succeeded (st : Importer) (left right : Margin) (event : TraceEvent) (isFake : Bool) :
    st.addTraceEvent cfg left right event isFake = succeeded (st.tryTraceEvent cfg left right event isFake) := by
  rw [addTraceEvent, tryTraceEvent]
  split
  · rfl
  · rfl

theorem addByte_eq_succeeded (curtime instr : ℕ) (ev : TraceEvent) (width : ℕ) (st : Importer) (a : ℕ) :
    st.addByte cfg matching curtime instr ev width a =
      succeeded (st.tryByte cfg matching curtime instr ev width a) := by
  unfold addByte tryByte
  split
  · dsimp only
    split
    · rfl
    · rw [addTraceEvent_eq_succeeded, succeeded]
      split
      · rfl
      · rfl
  · rfl

/-- **A caller that stops at a failure sees `addBytes`.** -/
theorem addBytes_eq_succeeded (curtime instr : ℕ) (ev : TraceEvent) (width lo hi : ℕ) (st : Importer) :
    st.addBytes cfg matching curtime instr ev width lo hi =
      succeeded (st.tryBytes cfg matching curtime instr ev width lo hi) :=
  foldlM_succeeded (addByte_eq_succeeded curtime instr ev width) st _

end Importer

/-- `MemoryImporter::handle_mem_event`, with its result. -/
def MemoryImporter.tryMemEvent (cfg : Config) (st : Importer) (curtime instr : ℕ) (ev : TraceEvent) :
    Importer × Bool :=
  st.tryBytes cfg cfg.isMatching curtime instr ev 1 (cfg.address ev.getMemaddr)
    (cfg.address (ev.getMemaddr + ev.getWidth))

theorem MemoryImporter.handleMemEvent_eq_succeeded (cfg : Config) (st : Importer) (curtime instr : ℕ)
    (ev : TraceEvent) :
    handleMemEvent cfg st curtime instr ev = succeeded (tryMemEvent cfg st curtime instr ev) :=
  Importer.addBytes_eq_succeeded ..

/-! ## The rows that are added -/

/-- **Only rows with property `P` are added**, and the start of the trace stays as it is. -/
structure Adds (P : TraceRow → Prop) (st st' : Importer) : Prop where
  rows : ∃ new, st'.rows = st.rows ++ new ∧ ∀ row ∈ new, P row
  start : st'.timeTraceStart = st.timeTraceStart

section Adds

variable {P : TraceRow → Prop} {cfg : Config} {st st' : Importer}

theorem adds_of_eq (hrows : st'.rows = st.rows) (hstart : st'.timeTraceStart = st.timeTraceStart) :
    Adds P st st' :=
  ⟨⟨[], by rw [hrows, List.append_nil], by simp⟩, hstart⟩

theorem Adds.trans {st₁ st₂ st₃ : Importer} (h₁ : Adds P st₁ st₂) (h₂ : Adds P st₂ st₃) : Adds P st₁ st₃ := by
  obtain ⟨⟨new₁, hrows₁, hnew₁⟩, hstart₁⟩ := h₁
  obtain ⟨⟨new₂, hrows₂, hnew₂⟩, hstart₂⟩ := h₂
  refine ⟨⟨new₁ ++ new₂, ?_, List.forall_mem_append.mpr ⟨hnew₁, hnew₂⟩⟩, hstart₂.trans hstart₁⟩
  rw [hrows₂, hrows₁, List.append_assoc]

theorem adds_tryTraceEvent {isFake : Bool} (hP : ∀ left right ev, P (Importer.traceRow cfg left right ev isFake))
    (st : Importer) (left right : Margin) (ev : TraceEvent) :
    Adds P st (st.tryTraceEvent cfg left right ev isFake).1 := by
  rw [Importer.tryTraceEvent]
  split
  · exact adds_of_eq rfl rfl
  · exact ⟨⟨_, rfl, List.forall_mem_singleton.mpr (hP left right ev)⟩, rfl⟩

theorem adds_tryMemEvent (hP : ∀ left right ev, P (Importer.traceRow cfg left right ev false)) (st : Importer)
    (curtime instr : ℕ) (ev : TraceEvent) :
    Adds P st (MemoryImporter.tryMemEvent cfg st curtime instr ev).1 := by
  refine foldUntil_keeps (P := Adds P st) (fun st' a h => h.trans ?_) (adds_of_eq rfl rfl) _
  -- one byte
  rw [Importer.tryByte]
  split
  · dsimp only
    split
    · exact adds_of_eq rfl rfl
    · have hopened : Adds P st' (st'.getOpenEC a).2 := adds_of_eq rfl rfl
      split
      · exact (hopened.trans (adds_tryTraceEvent hP ..)).trans (adds_of_eq rfl rfl)
      · exact hopened.trans (adds_tryTraceEvent hP ..)
  · exact adds_of_eq rfl rfl

theorem adds_closeEcIntervals (hP : ∀ left right ev, P (Importer.traceRow cfg left right ev true))
    (h : closeEcIntervals cfg st = some st') : Adds P st st' := by
  rw [closeEcIntervals] at h
  generalize st.openEcs.toList = lastuses at h
  induction lastuses generalizing st with
  | nil =>
    rw [← Option.some.inj h]
    exact adds_of_eq rfl rfl
  | cons lastuse lastuses ih =>
    rw [List.foldlM_cons] at h
    obtain ⟨st₁, hfirst, hrest⟩ := Option.bind_eq_some_iff.mp h
    refine Adds.trans ?_ (ih hrest)
    rw [closeEcInterval] at hfirst
    split at hfirst
    · rw [← Option.some.inj hfirst]
      exact adds_of_eq rfl rfl
    · rw [Importer.addTraceEvent_eq_succeeded, succeeded_eq_some] at hfirst
      rw [← show _ = st₁ from congrArg Prod.fst hfirst]
      exact adds_tryTraceEvent hP ..

end Adds

/-! ## Branches -/

/-- `DelayedTraceEntry`: a memory event, with the opcode of its instruction and the number of branch outcomes
known before. -/
structure DelayedTraceEntry where
  curtime : ℕ
  instr : ℕ
  ev : TraceEvent
  opcode : ℕ
  branchesBefore : ℕ
  deriving DecidableEq, Repr

/-- The members of `AdvancedMemoryImporter`. -/
structure BranchHistory where
  /-- `disas` has been set. -/
  disassembled : Bool := false
  /-- `m_last_was_conditional_branch`. -/
  lastWasConditionalBranch : Bool := false
  /-- `m_ip_jump_not_taken`. -/
  ipJumpNotTaken : ℕ := 0
  /-- `branches_taken`. -/
  branchesTaken : List Bool := []
  /-- `delayed_entries`. -/
  delayedEntries : List DelayedTraceEntry := []
  deriving DecidableEq, Repr

namespace AdvancedMemoryImporter

/-- `BRANCH_WINDOW_SIZE`. -/
def branchWindowSize : ℕ := 16

/-- The conversion to `signed`. -/
def signed (n : ℤ) : ℤ := n.bmod (2 ^ 32)

/-- The result of an operation on `signed` numbers; an overflow is undefined. -/
def signedResult (n : ℤ) : Option ℤ := if -(2 ^ 31) ≤ n ∧ n < 2 ^ 31 then some n else none

/-- **The branch decisions before and after a memory event**, one bit each. -/
def branchmask (branchesTaken : List Bool) (branchesBefore : ℕ) : Option ℕ := do
  let first ← signedResult (-signed branchesBefore)
  let last ← signedResult (signed branchesTaken.length - signed branchesBefore)
  let pos := max (-(branchWindowSize : ℤ)) first
  let maxpos := min (branchWindowSize : ℤ) last
  some ((List.range (maxpos - pos).toNat).foldl
    (fun mask (k : ℕ) =>
      let taken := branchesTaken[((branchesBefore + (pos + k)) % 2 ^ 32).toNat]?.getD false
      mask ||| taken.toNat <<< (16 - (pos + k) - 1).toNat) 0)

/-- We know enough future of this entry: `branches` outcomes. -/
def enoughFuture (branches : ℕ) (entry : DelayedTraceEntry) : Bool :=
  (entry.branchesBefore + branchWindowSize) % 2 ^ 32 ≤ branches

/-- The condition of the loop in `insert_delayed_entries`. -/
def released (branches : ℕ) (finalizing : Bool) (entry : DelayedTraceEntry) : Bool :=
  enoughFuture branches entry || finalizing

/-- `database_insert_data(ev, value_sql, num_columns, is_fake)`, with the opcode of the front entry and
`m_cur_branchmask`. A real row without the latter is one where it is undefined. -/
def databaseInsertData (opcode : ℕ) (curBranchmask : Option ℕ) (_ : TraceEvent) (isFake : Bool) :
    List (Option ℕ) :=
  if isFake then [none, none] else [some opcode, curBranchmask]

/-- **`insert_delayed_entries(finalizing)`**: the entries that are still delayed, and the importer behind the
insertions. Their results are ignored. -/
def insertDelayedEntries (cfg : Config) (branchesTaken : List Bool) (finalizing : Bool) :
    List DelayedTraceEntry → Importer → List DelayedTraceEntry × Importer
  | [], st => ([], st)
  | entry :: entries, st =>
    if released branchesTaken.length finalizing entry then
      let data := databaseInsertData entry.opcode (branchmask branchesTaken entry.branchesBefore)
      insertDelayedEntries cfg branchesTaken finalizing entries
        (MemoryImporter.tryMemEvent { cfg with databaseInsertData := data } st entry.curtime entry.instr
          entry.ev).1
    else (entry :: entries, st)

theorem insertDelayedEntries_fst (cfg : Config) (branchesTaken : List Bool) (finalizing : Bool)
    (entries : List DelayedTraceEntry) (st : Importer) :
    (insertDelayedEntries cfg branchesTaken finalizing entries st).1 =
      entries.dropWhile (released branchesTaken.length finalizing) := by
  induction entries generalizing st with
  | nil => rfl
  | cons entry entries ih =>
    rw [insertDelayedEntries]
    by_cases h : released branchesTaken.length finalizing entry = true
    · rw [if_pos h, List.dropWhile_cons_of_pos h]
      exact ih _
    · rw [if_neg h, List.dropWhile_cons_of_neg h]

/-- Only rows of events of the trace are inserted. -/
theorem adds_insertDelayedEntries {P : TraceRow → Prop} (cfg : Config)
    (hP : ∀ data left right ev,
      P (Importer.traceRow { cfg with databaseInsertData := data } left right ev false))
    (branchesTaken : List Bool) (finalizing : Bool) (entries : List DelayedTraceEntry) (st : Importer) :
    Adds P st (insertDelayedEntries cfg branchesTaken finalizing entries st).2 := by
  induction entries generalizing st with
  | nil => exact adds_of_eq rfl rfl
  | cons entry entries ih =>
    rw [insertDelayedEntries]
    split
    · exact (adds_tryMemEvent (hP _) st _ _ _).trans (ih _)
    · exact adds_of_eq rfl rfl

/-- The previous instruction was a branch: remember whether it was taken. -/
def learnBranch (h : BranchHistory) (ev : TraceEvent) : BranchHistory :=
  if h.lastWasConditionalBranch then
    { h with
      lastWasConditionalBranch := false
      branchesTaken := h.branchesTaken ++ [decide (ev.ip ≠ h.ipJumpNotTaken)] }
  else h

theorem learnBranch_delayedEntries (h : BranchHistory) (ev : TraceEvent) :
    (learnBranch h ev).delayedEntries = h.delayedEntries := by
  rw [learnBranch]
  split
  · rfl
  · rfl

/-- If the instruction is a conditional branch, the next instruction will tell whether it was taken. -/
def noteBranch (cfg : Config) (instrMap : InstrMap) (h : BranchHistory) (ev : TraceEvent) : BranchHistory :=
  match instrMap.find ev with
  | none => h
  | some opcode =>
    if opcode.conditionalBranch then
      { h with
        lastWasConditionalBranch := true
        ipJumpNotTaken := cfg.address ((opcode.address + opcode.length) % 2 ^ 32) }
    else h

theorem noteBranch_keeps (cfg : Config) (instrMap : InstrMap) (h : BranchHistory) (ev : TraceEvent) :
    (noteBranch cfg instrMap h ev).branchesTaken = h.branchesTaken ∧
      (noteBranch cfg instrMap h ev).delayedEntries = h.delayedEntries ∧
      (noteBranch cfg instrMap h ev).disassembled = h.disassembled := by
  rw [noteBranch]
  split
  · exact ⟨rfl, rfl, rfl⟩
  · split
    · exact ⟨rfl, rfl, rfl⟩
    · exact ⟨rfl, rfl, rfl⟩

/-- `AdvancedMemoryImporter::handle_ip_event`, with an ELF binary. It disassembles the binary. -/
def handleIpEvent (cfg : Config) (instrMap : InstrMap) (h : BranchHistory) (st : Importer) (ev : TraceEvent) :
    BranchHistory × Importer :=
  let h := learnBranch h ev
  let (delayedEntries, st) := insertDelayedEntries cfg h.branchesTaken false h.delayedEntries st
  (noteBranch cfg instrMap { h with delayedEntries, disassembled := true } ev, st)

/-- `AdvancedMemoryImporter::handle_mem_event`. It dereferences `disas`, and `instr_map.at` throws an exception
for an instruction that was not disassembled. -/
def handleMemEvent (instrMap : InstrMap) (h : BranchHistory) (curtime instr : ℕ) (ev : TraceEvent) :
    Option BranchHistory :=
  if h.disassembled then
    (instrMap.find ev).map fun opcode =>
      let entry : DelayedTraceEntry :=
        { curtime, instr, ev, opcode := opcode.opcode, branchesBefore := h.branchesTaken.length % 2 ^ 32 }
      { h with delayedEntries := h.delayedEntries ++ [entry] }
  else none

/-! ## The import -/

/-- The variables of the loop in `copy_to_database`, with the members of the subclass. -/
structure Delaying extends Progress where
  history : BranchHistory := {}

/-- One iteration of the loop in `copy_to_database`. -/
def importEvent (cfg : Config) (instrMap : InstrMap) (p : Delaying) (ev : TraceEvent) : Option Delaying :=
  (advanceTime p.toProgress ev).bind fun q =>
    if ev.hasMemaddr then
      (handleMemEvent instrMap p.history q.curtime q.instrMemaccess ev).map fun history =>
        { q with ip := ev.ip, history }
    else if q.instr = 2 ^ 32 - 1 then none
    else
      let (history, st) := handleIpEvent cfg instrMap p.history q.st ev
      some { q with instrMemaccess := q.instr, instr := q.instr + 1, ip := ev.ip, st, history }

/-- `trace_end_reached()`: insert the remaining entries. -/
def traceEndReached (cfg : Config) (p : Delaying) : Progress :=
  { p.toProgress with
    st := (insertDelayedEntries cfg p.history.branchesTaken true p.history.delayedEntries p.st).2 }

/-- **`copy_to_database`** of an `AdvancedMemoryImporter`. -/
def copyToDatabase (cfg : Config) (instrMap : InstrMap) (events : List TraceEvent) : Option Importer :=
  (events.foldlM (importEvent cfg instrMap) {}).bind fun p =>
    closeEcIntervals { cfg with databaseInsertData := databaseInsertData 0 none }
      (openUnusedEcIntervals cfg .memory (endTrace cfg (traceEndReached cfg p)))

end AdvancedMemoryImporter

end FailStar.ImportTrace
