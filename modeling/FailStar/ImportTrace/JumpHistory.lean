import FailStar.ImportTrace.BranchOutcomes

/-! # Jump histories

The `AdvancedMemoryImporter` inserts the rows of a memory event when it knows the outcomes of the next 16
branches, or at the end of the trace.

* **`importLog`** — all rows it inserts for memory events, each with the event that ends it; **`importLog_rows`**
  — they are the rows of the table, up to the fake ones.
* **`Remembers`** — what is remembered behind some events: all outcomes, and the entries that wait for more of
  them.
* **`jump_histories_iff`** — when all rows have complete jump histories. -/

namespace FailStar.ImportTrace

open AdvancedMemoryImporter

variable {cfg : Config} {instrMap : InstrMap} {events : List TraceEvent} {ev : TraceEvent} {st st' : Importer}

/-! ## The rows of a memory event -/

theorem Adds.rows_eq {P : TraceRow → Prop} (h : Adds P st st') :
    st'.rows = st.rows ++ st'.rows.drop st.rows.length := by
  obtain ⟨new, hrows, -⟩ := h.rows
  rw [hrows, List.drop_left]

theorem Adds.of_mem_drop {P : TraceRow → Prop} (h : Adds P st st') {row : TraceRow}
    (hrow : row ∈ st'.rows.drop st.rows.length) : P row := by
  obtain ⟨new, hrows, hnew⟩ := h.rows
  rw [hrows, List.drop_left] at hrow
  exact hnew row hrow

/-! ## The log of an import -/

/-- The rows `insert_delayed_entries` inserts, each with its entry. -/
def loggedEntries (cfg : Config) (branchesTaken : List Bool) (finalizing : Bool) :
    List DelayedTraceEntry → Importer → List (DelayedTraceEntry × TraceRow)
  | [], _ => []
  | entry :: entries, st =>
    if released branchesTaken.length finalizing entry then
      let data := databaseInsertData entry.opcode (branchmask branchesTaken entry.branchesBefore)
      let st' := (MemoryImporter.tryMemEvent { cfg with databaseInsertData := data } st entry.curtime entry.instr
        entry.ev).1
      (st'.rows.drop st.rows.length).map (fun row => (entry, row)) ++
        loggedEntries cfg branchesTaken finalizing entries st'
    else []

/-- The rows that are inserted at one event of the trace. -/
def eventLog (cfg : Config) (q : Delaying) (ev : TraceEvent) : List (DelayedTraceEntry × TraceRow) :=
  match advanceTime q.toProgress ev with
  | none => []
  | some p =>
    if ev.hasMemaddr ∨ p.instr = 2 ^ 32 - 1 then []
    else
      let h := learnBranch q.history ev
      loggedEntries cfg h.branchesTaken false h.delayedEntries p.st

/-- **The rows an import inserts for memory events**, each with the entry of the event that ends it, from some
state on. -/
def importLog (cfg : Config) (instrMap : InstrMap) :
    Delaying → List TraceEvent → List (DelayedTraceEntry × TraceRow)
  | q, [] => loggedEntries cfg q.history.branchesTaken true q.history.delayedEntries q.st
  | q, ev :: events =>
    eventLog cfg q ev ++
      match AdvancedMemoryImporter.importEvent cfg instrMap q ev with
      | none => []
      | some q' => importLog cfg instrMap q' events

theorem adds_entry (cfg : Config) (branchesTaken : List Bool) (entry : DelayedTraceEntry) (st : Importer) :
    Adds (fun row => row.additional = [some entry.opcode, branchmask branchesTaken entry.branchesBefore]) st
      (MemoryImporter.tryMemEvent { cfg with
        databaseInsertData := databaseInsertData entry.opcode (branchmask branchesTaken entry.branchesBefore) }
        st entry.curtime entry.instr entry.ev).1 :=
  adds_tryMemEvent (fun _ _ _ => rfl) st entry.curtime entry.instr entry.ev

theorem insertDelayedEntries_rows (cfg : Config) (branchesTaken : List Bool) (finalizing : Bool)
    (entries : List DelayedTraceEntry) (st : Importer) :
    (insertDelayedEntries cfg branchesTaken finalizing entries st).2.rows =
      st.rows ++ (loggedEntries cfg branchesTaken finalizing entries st).map Prod.snd := by
  induction entries generalizing st with
  | nil => simp [insertDelayedEntries, loggedEntries]
  | cons entry entries ih =>
    rw [insertDelayedEntries, loggedEntries]
    split
    · have hadds := adds_entry cfg branchesTaken entry st
      dsimp only
      rw [ih, List.map_append, List.map_map, ← List.append_assoc]
      congr 1
      rw [show Prod.snd ∘ (fun row : TraceRow => (entry, row)) = id from rfl, List.map_id]
      exact hadds.rows_eq
    · simp

/-- An event of the trace: a memory event joins the queue, and an instruction releases its front. -/
theorem importEvent_cases {q q' : Delaying}
    (h : AdvancedMemoryImporter.importEvent cfg instrMap q ev = some q') :
    ∃ p, advanceTime q.toProgress ev = some p ∧
      (ev.hasMemaddr = true ∧
          AdvancedMemoryImporter.handleMemEvent instrMap q.history p.curtime p.instrMemaccess ev =
            some q'.history ∧
          q'.st = p.st ∧ q'.toProgress = { p with ip := ev.ip } ∨
        ¬ ev.hasMemaddr = true ∧ p.instr ≠ 2 ^ 32 - 1 ∧
          q'.st = (handleIpEvent cfg instrMap q.history p.st ev).2 ∧
          q'.history = (handleIpEvent cfg instrMap q.history p.st ev).1 ∧
          q'.toProgress =
            { p with instrMemaccess := p.instr, instr := p.instr + 1, ip := ev.ip, st := q'.st }) := by
  obtain ⟨p, htime, hevent⟩ := Option.bind_eq_some_iff.mp h
  refine ⟨p, htime, ?_⟩
  split at hevent
  · rename_i hmem
    obtain ⟨history, hhistory, rfl⟩ := Option.map_eq_some_iff.mp hevent
    exact Or.inl ⟨hmem, hhistory, rfl, rfl⟩
  · rename_i hmem
    split at hevent
    · cases hevent
    · rename_i hinstr
      obtain rfl := Option.some.inj hevent
      exact Or.inr ⟨hmem, hinstr, rfl, rfl, rfl⟩

/-- **The log has the rows of the import**, up to those for the intervals that are still open. -/
theorem importLog_rows {q q' : Delaying}
    (h : events.foldlM (AdvancedMemoryImporter.importEvent cfg instrMap) q = some q') :
    (traceEndReached cfg q').st.rows = q.st.rows ++ (importLog cfg instrMap q events).map Prod.snd := by
  induction events generalizing q with
  | nil =>
    obtain rfl : q = q' := Option.some.inj h
    exact insertDelayedEntries_rows ..
  | cons ev events ih =>
    rw [List.foldlM_cons] at h
    obtain ⟨q₁, hstep, hrest⟩ := Option.bind_eq_some_iff.mp h
    rw [importLog, hstep, ih hrest, List.map_append, ← List.append_assoc]
    congr 1
    obtain ⟨p, htime, hcases⟩ := importEvent_cases hstep
    rw [eventLog, htime]
    dsimp only
    have hrows : p.st.rows = q.st.rows := (advanceTime_keeps htime).1
    rcases hcases with ⟨hmem, -, hst, -⟩ | ⟨hmem, hinstr, hst, -⟩
    · rw [if_pos (Or.inl hmem), hst, hrows]
      exact (List.append_nil _).symm
    · rw [if_neg (not_or.mpr ⟨hmem, hinstr⟩), hst, ← hrows]
      exact insertDelayedEntries_rows ..

/-- **The table of a finished import** has the rows of the log, and rows without a jump history. -/
theorem copyToDatabase_rows (h : AdvancedMemoryImporter.copyToDatabase cfg instrMap events = some st) :
    ∃ fakes, st.rows = (importLog cfg instrMap {} events).map Prod.snd ++ fakes ∧
      ∀ row ∈ fakes, row.additional = [none, none] := by
  obtain ⟨q, hevents, hclose⟩ := Option.bind_eq_some_iff.mp h
  obtain ⟨fakes, hrows, hfakes⟩ :=
    (adds_closeEcIntervals (P := fun row => row.additional = [none, none]) (fun _ _ _ => rfl) hclose).rows
  refine ⟨fakes, ?_, hfakes⟩
  rw [hrows, openUnusedEcIntervals, openUnused_rows]
  congr 1
  have hlog := importLog_rows hevents
  rwa [List.nil_append] at hlog

/-! ## What is remembered -/

/-- The entries of a queue wait for outcomes: each was put into it not more than 15 outcomes ago. -/
structure Waiting (known : ℕ) (entries : List DelayedTraceEntry) : Prop where
  sorted : entries.Pairwise fun entry entry' => entry.branchesBefore ≤ entry'.branchesBefore
  le : ∀ entry ∈ entries, entry.branchesBefore ≤ known
  near : ∀ entry ∈ entries, known < entry.branchesBefore + 16

/-- **What the importer remembers behind some events.** -/
structure Remembers (cfg : Config) (instrMap : InstrMap) (events : List TraceEvent) (q : Delaying) : Prop where
  clock : Clock events q.toProgress
  bound : instructionCount events < 2 ^ 32
  last : q.history.lastWasConditionalBranch = (instructions events).getLast?.any (isBranch instrMap)
  behind : ∀ last ∈ (instructions events).getLast?, ∀ opcode ∈ instrMap.find last,
    opcode.conditionalBranch = true →
    q.history.ipJumpNotTaken = disassembledBehind cfg opcode last
  taken : q.history.branchesTaken = outcomes instrMap (disassembledBehind cfg) events
  waiting : Waiting (knownBranches instrMap events) q.history.delayedEntries
  entries : ∀ entry ∈ q.history.delayedEntries, ∃ front ev back, events = front ++ ev :: back ∧
    ev.hasMemaddr = true ∧
    entry = entryAt instrMap front ev

theorem remembers_init (cfg : Config) (instrMap : InstrMap) : Remembers cfg instrMap [] {} where
  clock := clock_init
  bound := by decide
  last := rfl
  behind last hlast := by simp [instructions] at hlast
  taken := rfl
  waiting := ⟨List.Pairwise.nil, by simp, by simp⟩
  entries entry hentry := absurd hentry List.not_mem_nil

section Waiting

variable {known : ℕ} {entries : List DelayedTraceEntry} {entry : DelayedTraceEntry}

theorem waiting_concat (h : Waiting known entries) (hentry : entry.branchesBefore = known) :
    Waiting known (entries ++ [entry]) where
  sorted := by
    refine List.pairwise_append.mpr ⟨h.sorted, List.pairwise_singleton _ _, fun e he e' he' => ?_⟩
    rw [List.mem_singleton.mp he', hentry]
    exact h.le e he
  le := List.forall_mem_append.mpr ⟨h.le, List.forall_mem_singleton.mpr hentry.le⟩
  near := List.forall_mem_append.mpr ⟨h.near, List.forall_mem_singleton.mpr (by omega)⟩

/-- **One more outcome releases all entries that wait for no more**, as the queue is in order. -/
theorem Waiting.dropWhile (h : Waiting known entries) {n : ℕ} (hn : n ≤ known + 1) (hle : known ≤ n)
    (hlt : n < 2 ^ 32) :
    Waiting n (entries.dropWhile (enoughFuture n)) := by
  have hsuffix : (entries.dropWhile (enoughFuture n)).Sublist entries := List.dropWhile_sublist _
  refine ⟨h.sorted.sublist hsuffix, fun e he => (h.le e (hsuffix.subset he)).trans hle, fun e he => ?_⟩
  cases hrest : entries.dropWhile (enoughFuture n) with
  | nil => simp [hrest] at he
  | cons first rest =>
    -- the first entry waits for more outcomes, and the others were put into the queue later
    have hfirst : enoughFuture n first = false := by
      have hne : entries.dropWhile (enoughFuture n) ≠ [] := by simp [hrest]
      have hnot := List.head_dropWhile_not (enoughFuture n) hne
      simpa [hrest] using hnot
    have hmem : first ∈ entries := hsuffix.subset (by rw [hrest]; exact List.mem_cons_self)
    have hbefore := h.le first hmem
    have hnear := h.near first hmem
    rw [enoughFuture, branchWindowSize, decide_eq_false_iff_not] at hfirst
    have hsorted := h.sorted.sublist hsuffix
    rw [hrest] at hsorted he
    rcases List.mem_cons.mp he with rfl | he
    · omega
    · have hlater := (List.pairwise_cons.mp hsorted).1 e he
      omega

end Waiting

variable {q q' : Delaying}

/-- **The next instruction tells the outcome of the last one.** -/
theorem Remembers.learned (h : Remembers cfg instrMap events q) (hmem : ¬ ev.hasMemaddr = true) :
    (learnBranch q.history ev).branchesTaken = outcomes instrMap (disassembledBehind cfg) (events ++ [ev]) ∧
      (learnBranch q.history ev).lastWasConditionalBranch = false ∧
      (learnBranch q.history ev).delayedEntries = q.history.delayedEntries := by
  have hlast := h.last
  have hbehind := h.behind
  rw [learnBranch, outcomes_instr _ _ hmem, ← h.taken]
  -- an outcome is added exactly if the instruction before this one is a conditional branch
  cases hprev : (instructions events).getLast? with
  | none =>
    rw [hprev] at hlast
    rw [hlast]
    exact ⟨(List.append_nil _).symm, hlast, rfl⟩
  | some last =>
    rw [hprev] at hlast hbehind
    have hbehind := hbehind last rfl
    rw [Option.map_some, Option.getD_some, outcome]
    rw [Option.any_some, isBranch] at hlast
    cases hfind : instrMap.find last with
    | none =>
      rw [hfind] at hlast
      rw [hlast]
      exact ⟨(List.append_nil _).symm, hlast, rfl⟩
    | some opcode =>
      rw [hfind, Option.any_some] at hlast
      cases hbranch : opcode.conditionalBranch with
      | false =>
        rw [hbranch] at hlast
        simp only [hlast, hbranch, Bool.false_eq_true, if_false, List.append_nil, and_self]
      | true =>
        rw [hbranch] at hlast
        simp only [hlast, hbranch, if_true, hbehind opcode hfind hbranch, and_self]

theorem noteBranch_behind (cfg : Config) (instrMap : InstrMap) (h : BranchHistory) (ev : TraceEvent) :
    ∀ opcode ∈ instrMap.find ev, opcode.conditionalBranch = true →
      (noteBranch cfg instrMap h ev).ipJumpNotTaken = disassembledBehind cfg opcode ev := by
  intro opcode hfind hbranch
  rw [noteBranch, Option.mem_def.mp hfind]
  simp only [hbranch, if_true]
  rfl

/-- A memory event joins the queue. -/
theorem Remembers.queue (h : Remembers cfg instrMap events q) (hmem : ev.hasMemaddr = true)
    (hstep : AdvancedMemoryImporter.importEvent cfg instrMap q ev = some q') :
    q'.toProgress = { q.toProgress with
        curtime := traceTime (events ++ [ev]) % 2 ^ 64
        ip := ev.ip
        st := { q.st with timeTraceStart := traceStart (events ++ [ev]) } } ∧
      q'.history = { q.history with
        delayedEntries := q.history.delayedEntries ++ [entryAt instrMap events ev] } := by
  obtain ⟨p, htime, ⟨-, hhistory, -, hprogress⟩ | ⟨hnot, -⟩⟩ := importEvent_cases hstep
  · rw [h.clock.advanceTime (nonneg_of_advanceTime htime), Option.some.injEq] at htime
    subst htime
    refine ⟨hprogress, ?_⟩
    rw [AdvancedMemoryImporter.handleMemEvent] at hhistory
    split at hhistory
    · obtain ⟨opcode, hopcode, hentry⟩ := Option.map_eq_some_iff.mp hhistory
      have hlen : q.history.branchesTaken.length =
          knownBranches instrMap events := by rw [h.taken, length_outcomes]
      rw [← hentry, entryAt, hopcode, hlen, h.clock.memaccess]
      rfl
    · cases hhistory
  · exact absurd hmem hnot

theorem Remembers.memEvent (h : Remembers cfg instrMap events q) (hmem : ev.hasMemaddr = true)
    (hstep : AdvancedMemoryImporter.importEvent cfg instrMap q ev = some q') :
    Remembers cfg instrMap (events ++ [ev]) q' := by
  obtain ⟨hprogress, hqueue⟩ := h.queue hmem hstep
  have hknown := knownBranches_le_count instrMap events
  -- the entry stores the number of outcomes in 32 bits; there are fewer of them than instructions
  have hbefore : (entryAt instrMap events ev).branchesBefore = knownBranches instrMap events := by
    have hbound := h.bound
    exact Nat.mod_eq_of_lt (by omega)
  refine ⟨?_, ?_, ?_, ?_, ?_, ?_, ?_⟩
  · rw [hprogress]
    exact .of_mem hmem h.clock.instr h.clock.memaccess rfl rfl rfl
  · rw [instructionCount_concat, if_pos hmem, Nat.add_zero]
    exact h.bound
  · rw [hqueue, instructions_mem hmem]
    exact h.last
  · rw [hqueue, instructions_mem hmem]
    exact h.behind
  · rw [hqueue, outcomes_mem _ _ hmem]
    exact h.taken
  · rw [hqueue, knownBranches_mem hmem]
    exact waiting_concat h.waiting hbefore
  · rw [hqueue]
    refine List.forall_mem_append.mpr ⟨fun entry hentry => ?_, ?_⟩
    · obtain ⟨front, ev', back, hsplit, hev'⟩ := h.entries entry hentry
      exact ⟨front, ev', back ++ [ev], by rw [hsplit, List.append_assoc, List.cons_append], hev'⟩
    · exact List.forall_mem_singleton.mpr ⟨events, ev, [], rfl, hmem, rfl⟩

/-- **An instruction releases the entries that know enough.** -/
theorem Remembers.ipEvent (h : Remembers cfg instrMap events q) (hmem : ¬ ev.hasMemaddr = true)
    (hstep : AdvancedMemoryImporter.importEvent cfg instrMap q ev = some q') :
    Remembers cfg instrMap (events ++ [ev]) q' := by
  obtain ⟨p, htime, ⟨hnot, -⟩ | ⟨-, hinstr, hst, hhistory, hprogress⟩⟩ := importEvent_cases hstep
  · exact absurd hnot hmem
  · rw [h.clock.advanceTime (nonneg_of_advanceTime htime), Option.some.injEq] at htime
    subst htime
    obtain ⟨htaken, hlast, hdelayed⟩ := h.learned hmem
    -- the importer gives up before the instruction counter wraps around
    have hbound : instructionCount (events ++ [ev]) < 2 ^ 32 := by
      have hcount := h.clock.instr
      have hbound := h.bound
      rw [instructionCount_concat, if_neg hmem]
      dsimp only at hinstr
      omega
    have hlen : (learnBranch q.history ev).branchesTaken.length = knownBranches instrMap (events ++ [ev]) := by
      rw [htaken, length_outcomes]
    have hone : knownBranches instrMap (events ++ [ev]) ≤ knownBranches instrMap events + 1 := by
      rw [knownBranches_instr hmem]
      split <;> omega
    -- first the outcome of the last branch, then the queue, and only then the new instruction
    rw [handleIpEvent] at hhistory
    dsimp only at hhistory
    rw [insertDelayedEntries_fst, released_false, hlen, hdelayed] at hhistory
    generalize hafter : ({ learnBranch q.history ev with
        delayedEntries :=
          q.history.delayedEntries.dropWhile (enoughFuture (knownBranches instrMap (events ++ [ev])))
        disassembled := true } : BranchHistory) = after at hhistory
    have hbehind := noteBranch_behind cfg instrMap after ev
    have hlast' := noteBranch_last cfg instrMap after ev (hafter ▸ hlast)
    obtain ⟨htaken', hdelayed', -⟩ := noteBranch_keeps cfg instrMap after ev
    rw [← hhistory] at hlast' htaken' hdelayed' hbehind
    subst hafter
    refine ⟨?_, hbound, ?_, ?_, htaken'.trans htaken, ?_, ?_⟩
    · rw [hprogress]
      refine .of_instr hmem (congrArg (· + 1) h.clock.instr) h.clock.instr rfl ?_ rfl
      rw [hst]
      exact (adds_insertDelayedEntries (P := fun _ => True) cfg (fun _ _ _ _ => trivial) ..).start
    · rw [instructions_instr hmem, List.getLast?_concat]
      exact hlast'
    · rw [instructions_instr hmem, List.getLast?_concat]
      intro last hev
      obtain rfl := Option.some.inj hev
      exact hbehind
    · -- at most one outcome is new, so that the released entries know exactly as many as they need
      rw [hdelayed']
      have hknown := knownBranches_le_count instrMap (events ++ [ev])
      exact h.waiting.dropWhile hone (knownBranches_le events ev) (by omega)
    · rw [hdelayed']
      intro entry hentry
      obtain ⟨front, ev', back, hsplit, hev'⟩ := h.entries entry ((List.dropWhile_sublist _).subset hentry)
      exact ⟨front, ev', back ++ [ev], by rw [hsplit, List.append_assoc, List.cons_append], hev'⟩

theorem Remembers.importEvent (h : Remembers cfg instrMap events q)
    (hstep : AdvancedMemoryImporter.importEvent cfg instrMap q ev = some q') :
    Remembers cfg instrMap (events ++ [ev]) q' := by
  by_cases hmem : ev.hasMemaddr = true
  · exact h.memEvent hmem hstep
  · exact h.ipEvent hmem hstep

theorem Remembers.foldlM (h : Remembers cfg instrMap events q) {rest : List TraceEvent}
    (hfold : rest.foldlM (AdvancedMemoryImporter.importEvent cfg instrMap) q = some q') :
    Remembers cfg instrMap (events ++ rest) q' := by
  induction rest generalizing events q with
  | nil =>
    obtain rfl : q = q' := Option.some.inj hfold
    rwa [List.append_nil]
  | cons ev rest ih =>
    rw [List.foldlM_cons] at hfold
    obtain ⟨q₁, hstep, hrest⟩ := Option.bind_eq_some_iff.mp hfold
    rw [List.append_cons]
    exact ih (h.importEvent hstep) hrest

/-! ## All rows -/

/-- A row of the log: the memory event that ends it, and the outcomes its mask was computed from. -/
structure Logged (cfg : Config) (instrMap : InstrMap) (events : List TraceEvent)
    (x : DelayedTraceEntry × TraceRow) :
    Prop where
  entry : ∃ front ev back, events = front ++ ev :: back ∧ ev.hasMemaddr = true ∧
    instructionCount front < 2 ^ 32 ∧
    x.1 = entryAt instrMap front ev
  mask : ∃ taken, x.2.additional = [some x.1.opcode, branchmask taken x.1.branchesBefore] ∧
    taken <+: outcomes instrMap (disassembledBehind cfg) events ∧ taken.length < 2 ^ 32 ∧
    x.1.branchesBefore ≤ taken.length ∧ taken.length ≤ x.1.branchesBefore + 16 ∧
    (taken = outcomes instrMap (disassembledBehind cfg) events ∨
      (x.1.branchesBefore + branchWindowSize) % 2 ^ 32 ≤ taken.length)

theorem mem_loggedEntries {branchesTaken : List Bool} {finalizing : Bool} {entries : List DelayedTraceEntry}
    {x : DelayedTraceEntry × TraceRow} (hx : x ∈ loggedEntries cfg branchesTaken finalizing entries st) :
    x.1 ∈ entries ∧ released branchesTaken.length finalizing x.1 = true ∧
      x.2.additional = [some x.1.opcode, branchmask branchesTaken x.1.branchesBefore] := by
  induction entries generalizing st with
  | nil => simp [loggedEntries] at hx
  | cons entry entries ih =>
    rw [loggedEntries] at hx
    split at hx
    · rename_i hreleased
      rcases List.mem_append.mp hx with hx | hx
      · obtain ⟨row, hrow, rfl⟩ := List.mem_map.mp hx
        exact ⟨List.mem_cons_self, hreleased, (adds_entry cfg branchesTaken entry st).of_mem_drop hrow⟩
      · obtain ⟨hmem, hrest⟩ := ih hx
        exact ⟨List.mem_cons_of_mem _ hmem, hrest⟩
    · simp at hx

theorem Remembers.entry (h : Remembers cfg instrMap events q) (rest : List TraceEvent)
    {entry : DelayedTraceEntry} (hentry : entry ∈ q.history.delayedEntries) :
    ∃ front ev back, events ++ rest = front ++ ev :: back ∧ ev.hasMemaddr = true ∧
      instructionCount front < 2 ^ 32 ∧
      entry = entryAt instrMap front ev := by
  obtain ⟨front, ev, back, hsplit, hev, heq⟩ := h.entries entry hentry
  refine ⟨front, ev, back ++ rest, by rw [hsplit, List.append_assoc, List.cons_append], hev, ?_, heq⟩
  have hle : instructionCount front ≤ instructionCount events := by
    rw [hsplit, instructionCount, instructionCount, List.countP_append]
    exact Nat.le_add_right _ _
  exact hle.trans_lt h.bound

theorem Remembers.eventLog (h : Remembers cfg instrMap events q) (rest : List TraceEvent)
    {x : DelayedTraceEntry × TraceRow} (hx : x ∈ eventLog cfg q ev) :
    Logged cfg instrMap (events ++ ev :: rest) x := by
  rw [ImportTrace.eventLog] at hx
  split at hx
  · simp at hx
  · rename_i p htime
    split at hx
    · simp at hx
    · rename_i hinstr
      obtain ⟨hmem, hcount⟩ := not_or.mp hinstr
      obtain ⟨htaken, -, hdelayed⟩ := h.learned hmem
      obtain ⟨hentry, hreleased, hcolumns⟩ := mem_loggedEntries hx
      rw [hdelayed] at hentry
      refine ⟨h.entry (ev :: rest) hentry, _, hcolumns, ?_, ?_, ?_, ?_, Or.inr ?_⟩
      · have hsplit : events ++ ev :: rest = events ++ [ev] ++ rest := List.append_cons ..
        rw [htaken, hsplit]
        exact outcomes_front ..
      · have hknown := knownBranches_le_count instrMap (events ++ [ev])
        have hbound := h.bound
        rw [instructionCount_concat, if_neg hmem] at hknown
        rw [htaken, length_outcomes]
        omega
      · rw [htaken, length_outcomes]
        exact (h.waiting.le _ hentry).trans (knownBranches_le events ev)
      · have hnear := h.waiting.near _ hentry
        rw [htaken, length_outcomes, knownBranches_instr hmem]
        split <;> omega
      · rw [released_false, enoughFuture, decide_eq_true_eq] at hreleased
        exact hreleased

/-- **All rows of the log**, from a state on that remembers the events before. -/
theorem Remembers.importLog (h : Remembers cfg instrMap events q) (rest : List TraceEvent) :
    ∀ x ∈ importLog cfg instrMap q rest, Logged cfg instrMap (events ++ rest) x := by
  induction rest generalizing events q with
  | nil =>
    intro x hx
    obtain ⟨hentry, -, hcolumns⟩ := mem_loggedEntries hx
    have hknown := knownBranches_le_count instrMap events
    have hbound := h.bound
    have hnear := h.waiting.near _ hentry
    refine ⟨h.entry [] hentry, _, hcolumns, ?_, ?_, ?_, ?_, Or.inl ?_⟩
    · rw [h.taken, List.append_nil]
    · rw [h.taken, length_outcomes]
      omega
    · rw [h.taken, length_outcomes]
      exact h.waiting.le _ hentry
    · rw [h.taken, length_outcomes]
      exact hnear.le
    · rw [h.taken, List.append_nil]
  | cons ev rest ih =>
    intro x hx
    rw [ImportTrace.importLog] at hx
    rcases List.mem_append.mp hx with hx | hx
    · exact h.eventLog rest hx
    · split at hx
      · simp at hx
      · rename_i q' hstep
        rw [List.append_cons]
        exact ih (h.importEvent hstep) x hx

theorem importLog_logged {x : DelayedTraceEntry × TraceRow} (hx : x ∈ importLog cfg instrMap {} events) :
    Logged cfg instrMap events x := by
  have hlogged := (remembers_init cfg instrMap).importLog events x hx
  rwa [List.nil_append] at hlogged

/-- The memory event `ev` behind the events `front` ends the row. -/
def EndsRow (cfg : Config) (instrMap : InstrMap) (events front : List TraceEvent) (ev : TraceEvent)
    (row : TraceRow) : Prop :=
  (entryAt instrMap front ev, row) ∈ importLog cfg instrMap {} events

/-- The row has the jump history of a memory event behind the events `front`. -/
def HasJumpHistory (cfg : Config) (instrMap : InstrMap) (events front : List TraceEvent) (row : TraceRow) :
    Prop :=
  ∃ opcode mask, row.additional = [opcode, some mask] ∧
    IsJumpHistory (outcomes instrMap (fallThrough cfg) events)
      (outcomes instrMap (fallThrough cfg) front).length mask

/-- The condition for the rows of a memory event behind the events `front`. -/
def CompleteBehind (cfg : Config) (instrMap : InstrMap) (events front : List TraceEvent) : Prop :=
  CompleteAt (outcomes instrMap (disassembledBehind cfg) events) (outcomes instrMap (fallThrough cfg) events)
    (outcomes instrMap (fallThrough cfg) front).length

/-- **One row.** -/
theorem EndsRow.hasJumpHistory_iff {front : List TraceEvent} {row : TraceRow}
    (h : EndsRow cfg instrMap events front ev row) :
    HasJumpHistory cfg instrMap events front row ↔ CompleteBehind cfg instrMap events front := by
  obtain ⟨⟨front', ev', back, -, -, hcount, heq⟩, taken, hcolumns, hfront, hlt, hle, hnear, hknown⟩ :=
    importLog_logged h
  -- the number of outcomes before the event has 32 bits, as the instructions were counted
  have hbefore : (entryAt instrMap front ev).branchesBefore =
      (outcomes instrMap (fallThrough cfg) front).length := by
    have hinstr : instructionCount front - 1 = instructionCount front' - 1 :=
      congrArg DelayedTraceEntry.instr heq
    have hless := knownBranches_le_count instrMap front
    rw [length_outcomes]
    exact Nat.mod_eq_of_lt (by omega)
  dsimp only at hcolumns hle hnear hknown
  rw [hbefore] at hcolumns hle hnear hknown
  have hlen : (outcomes instrMap (disassembledBehind cfg) events).length =
      (outcomes instrMap (fallThrough cfg) events).length := by rw [length_outcomes, length_outcomes]
  have hiff := isJumpHistory_branchmask_iff hlt hle hnear hfront hlen hknown
  rw [CompleteBehind, ← hiff, HasJumpHistory]
  constructor
  · rintro ⟨opcode, mask, hmask, hhistory⟩
    have hsame : branchmask taken (outcomes instrMap (fallThrough cfg) front).length = some mask := by
      rw [hcolumns] at hmask
      simp only [List.cons.injEq, and_true] at hmask
      exact hmask.2
    exact ⟨mask, hsame, hhistory⟩
  · rintro ⟨mask, hmask, hhistory⟩
    rw [Option.mem_def.mp hmask] at hcolumns
    exact ⟨_, mask, hcolumns, hhistory⟩

/-- The disassembled instructions, with those at the addresses `conditional` marked as conditional branches. -/
def InstrMap.mark (instrMap : InstrMap) (conditional : ℕ → Bool) : InstrMap := fun address =>
  (instrMap address).map fun opcode => { opcode with conditionalBranch := conditional address }

/-- The disassembler marks the conditional branches. -/
def InstrMap.Marks (instrMap : InstrMap) (conditional : ℕ → Bool) : Prop :=
  ∀ address, ∀ opcode ∈ instrMap address, opcode.conditionalBranch = conditional address

theorem InstrMap.Marks.mark_eq {conditional : ℕ → Bool} (h : instrMap.Marks conditional) :
    instrMap.mark conditional = instrMap := by
  funext address
  rw [InstrMap.mark]
  cases hfind : instrMap address with
  | none => rfl
  | some opcode => rw [Option.map_some, ← h address opcode hfind]

/-- **When jump histories are complete**, if the disassembler marks the instructions at the addresses
`conditional`, which are the conditional branches: for every row, the outcomes around the event that ends it are
judged right, as long as there are fewer than `2 ^ 31` of them; behind more than `2 ^ 31` outcomes, no branch
around the event is taken. -/
theorem jump_histories_iff (cfg : Config) (instrMap : InstrMap) (conditional : ℕ → Bool)
    (hmarks : instrMap.Marks conditional) (events : List TraceEvent) :
    (∀ front ev back row, events = front ++ ev :: back → EndsRow cfg instrMap events front ev row →
        HasJumpHistory cfg (instrMap.mark conditional) events front row) ↔
      ∀ front ev back row, events = front ++ ev :: back → EndsRow cfg instrMap events front ev row →
        CompleteBehind cfg (instrMap.mark conditional) events front := by
  rw [hmarks.mark_eq]
  constructor
  · intro h front ev back row hsplit hends
    exact hends.hasJumpHistory_iff.mp (h front ev back row hsplit hends)
  · intro h front ev back row hsplit hends
    exact hends.hasJumpHistory_iff.mpr (h front ev back row hsplit hends)

/-! ## A long loop -/

theorem importLog_append {xs ys : List TraceEvent}
    (h : xs.foldlM (AdvancedMemoryImporter.importEvent cfg instrMap) q = some q')
    {x : DelayedTraceEntry × TraceRow}
    (hx : x ∈ importLog cfg instrMap q' ys) : x ∈ importLog cfg instrMap q (xs ++ ys) := by
  induction xs generalizing q with
  | nil =>
    obtain rfl : q = q' := Option.some.inj h
    exact hx
  | cons ev xs ih =>
    rw [List.foldlM_cons] at h
    obtain ⟨q₁, hstep, hrest⟩ := Option.bind_eq_some_iff.mp h
    rw [List.cons_append, importLog, hstep]
    exact List.mem_append_right _ (ih hrest)

/-- A conditional branch to itself. -/
def loopBranch : TraceEvent := { ip := 10 }

/-- The instruction behind the loop. -/
def loopExit : TraceEvent := { ip := 20 }

/-- Its memory access. -/
def loopAccess : TraceEvent := { ip := 20, memaddr := some 16, width := some 1 }

/-- The loop and the instructions behind it. -/
def loopInstrMap : InstrMap := fun address =>
  if address = 10 then some { length := 2, address := 10, conditionalBranch := true }
  else some { length := 2, address }

/-- The address of the only conditional branch. -/
def loopConditional (address : ℕ) : Bool := address == 10

/-- Its instructions as Capstone's wrapper stores them, which marks no instruction as a conditional branch. -/
def capstoneInstrMap : InstrMap := loopInstrMap.mark fun _ => false

theorem loopInstrMap_marks : loopInstrMap.Marks loopConditional := by
  intro address opcode hopcode
  rw [loopInstrMap] at hopcode
  split at hopcode
  case isTrue h =>
    rw [← Option.some.inj hopcode, h]
    rfl
  case isFalse h =>
    rw [← Option.some.inj hopcode]
    exact (beq_false_of_ne h).symm

/-- A configuration for 32-bit addresses. -/
def loopConfig : Config := { addressBits := 32 }

/-- The loop, whose branch runs `n` times, and the instruction behind it. -/
def branchLoop (n : ℕ) : List TraceEvent := List.replicate n loopBranch ++ [loopExit]

theorem instructionOutcomes_loop (n : ℕ) :
    instructionOutcomes loopInstrMap (fallThrough loopConfig) (branchLoop n) = List.replicate n true := by
  rw [branchLoop]
  induction n with
  | zero => rfl
  | succ n ih =>
    cases n with
    | zero => rfl
    | succ n =>
      have hstep : outcome loopInstrMap (fallThrough loopConfig) loopBranch loopBranch = [true] := rfl
      rw [List.replicate_succ, List.cons_append] at ih ⊢
      rw [List.replicate_succ, List.cons_append, instructionOutcomes, hstep, ih]
      rfl

theorem outcomes_loop (n : ℕ) :
    outcomes loopInstrMap (fallThrough loopConfig) (branchLoop n) = List.replicate n true := by
  have hinstrs : instructions (branchLoop n) = branchLoop n := by
    rw [branchLoop, instructions, List.filter_append, List.filter_replicate_of_pos (by rfl)]
    rfl
  rw [outcomes, hinstrs, instructionOutcomes_loop]

/-- An instruction without time, while no memory event is delayed. -/
theorem importEvent_quiet (cfg : Config) (instrMap : InstrMap) (hqueue : q.history.delayedEntries = [])
    (hmem : ¬ ev.hasMemaddr = true) (htime : ev.timeDelta = none) (hinstr : q.instr ≠ 2 ^ 32 - 1) :
    ∃ q', AdvancedMemoryImporter.importEvent cfg instrMap q ev = some q' ∧ q'.instr = q.instr + 1 ∧
      q'.st = q.st ∧
      q'.history.delayedEntries = [] ∧ q'.history.disassembled = true := by
  have hadvance : advanceTime q.toProgress ev = some q.toProgress := by rw [advanceTime, htime]
  have hlearn : (learnBranch q.history ev).delayedEntries = [] := (learnBranch_delayedEntries _ _).trans hqueue
  rw [AdvancedMemoryImporter.importEvent, hadvance, Option.bind_some, if_neg hmem, if_neg hinstr]
  refine ⟨_, rfl, rfl, ?_, ?_, ?_⟩
  · simp only [hlearn, insertDelayedEntries]
  · simp only [hlearn, insertDelayedEntries, (noteBranch_keeps cfg instrMap _ ev).2.1]
  · simp only [(noteBranch_keeps cfg instrMap _ ev).2.2]

theorem foldlM_quiet (cfg : Config) (instrMap : InstrMap) (hqueue : q.history.delayedEntries = [])
    (hevents : ∀ ev ∈ events, ¬ ev.hasMemaddr = true ∧ ev.timeDelta = none)
    (hcount : q.instr + events.length < 2 ^ 32) :
    ∃ q', events.foldlM (AdvancedMemoryImporter.importEvent cfg instrMap) q = some q' ∧ q'.st = q.st ∧
      q'.history.delayedEntries = [] ∧
        (q.history.disassembled = true ∨ events ≠ [] → q'.history.disassembled = true) := by
  induction events generalizing q with
  | nil => exact ⟨q, rfl, rfl, hqueue, fun h => h.resolve_right fun hne => hne rfl⟩
  | cons ev events ih =>
    obtain ⟨⟨hmem, htime⟩, hrest⟩ := List.forall_mem_cons.mp hevents
    rw [List.length_cons] at hcount
    obtain ⟨q₁, hstep, hinstr, hst, hqueue₁, hdisas⟩ :=
      importEvent_quiet cfg instrMap hqueue hmem htime (by omega)
    obtain ⟨q', hfold, hst', hqueue', hdisas'⟩ := ih hqueue₁ hrest (by omega)
    refine ⟨q', ?_, hst'.trans hst, hqueue', fun _ => hdisas' (Or.inl hdisas)⟩
    rw [List.foldlM_cons, hstep]
    exact hfold

/-- The access inserts a row, as it is the first one of its byte. -/
theorem exists_row_loopAccess {data : TraceEvent → Bool → List (Option ℕ)} {entry : DelayedTraceEntry}
    (hcfg : cfg = { loopConfig with databaseInsertData := data }) (hev : entry.ev = loopAccess)
    (hst : st.openEcs = ∅) :
    ∃ row, row ∈
      (MemoryImporter.tryMemEvent cfg st entry.curtime entry.instr entry.ev).1.rows.drop st.rows.length := by
  have hdb : cfg.Accepts := by
    rw [hcfg]
    exact fun _ _ => rfl
  have htouches : entry.touches cfg = [(entry, 16)] := by
    rw [hcfg, DelayedTraceEntry.touches, hev]
    rfl
  have hrow : (rowByte cfg st.timeTraceStart st.openEcs (entry, 16)).length = 1 := by
    have hends : cfg.isMatching 16 = true ∧ (st.openEcs[16]?.getD ({} : Margin)).dyninstr ≤ entry.instr ∧
        cfg.imports entry.ev = true := by
      rw [hcfg, hst]
      exact ⟨rfl, Nat.zero_le _, rfl⟩
    rw [rowByte, if_pos hends]
    rfl
  have hrows := congrArg List.length (records_tryMemEvent hdb entry st).2.rows
  rw [htouches, emit, emit, List.append_nil, List.length_append, List.length_map, List.length_map, hrow] at hrows
  refine List.exists_mem_of_length_pos ?_
  rw [List.length_drop]
  omega

/-- So does it if it is delayed until the end. -/
theorem exists_row_loggedEntries {entry : DelayedTraceEntry} (hev : entry.ev = loopAccess) (hst : st.openEcs = ∅)
    (branchesTaken : List Bool) :
    ∃ row, (entry, row) ∈ loggedEntries loopConfig branchesTaken true [entry] st := by
  rw [loggedEntries, released, if_pos (Bool.or_true _)]
  obtain ⟨row, hrow⟩ := exists_row_loopAccess rfl hev hst
  exact ⟨row, List.mem_append_left _ (List.mem_map_of_mem hrow)⟩

theorem endsRow_loop (instrMap : InstrMap) {opcode : Instr} (hfind : instrMap.find loopAccess = some opcode)
    {n : ℕ} (hn : n + 1 < 2 ^ 32) :
    ∃ row, EndsRow loopConfig instrMap (branchLoop n ++ [loopAccess]) (branchLoop n) loopAccess row := by
  have hquiet : ∀ ev ∈ branchLoop n, ¬ ev.hasMemaddr = true ∧ ev.timeDelta = none := by
    refine List.forall_mem_append.mpr ⟨fun ev hev => ?_, List.forall_mem_singleton.mpr ⟨by decide, rfl⟩⟩
    rw [(List.mem_replicate.mp hev).2]
    exact ⟨by decide, rfl⟩
  have hcount : ({} : Delaying).instr + (branchLoop n).length < 2 ^ 32 := by
    rw [branchLoop, List.length_append, List.length_replicate, List.length_singleton]
    exact (Nat.zero_add _).trans_lt hn
  obtain ⟨q, hfold, hst, hqueue, hdisas⟩ := foldlM_quiet loopConfig instrMap rfl hquiet hcount
  have hremembers := (remembers_init loopConfig instrMap).foldlM hfold
  rw [List.nil_append] at hremembers
  have hdisas' : q.history.disassembled = true := hdisas (Or.inr (by simp [branchLoop]))
  -- the access is delayed until the end of the trace
  obtain ⟨q', hstep⟩ : ∃ q', AdvancedMemoryImporter.importEvent loopConfig instrMap q loopAccess = some q' := by
    have hadvance : advanceTime q.toProgress loopAccess = some q.toProgress := rfl
    have hmem : loopAccess.hasMemaddr = true := rfl
    rw [AdvancedMemoryImporter.importEvent, hadvance, Option.bind_some, if_pos hmem,
      AdvancedMemoryImporter.handleMemEvent, if_pos hdisas', hfind]
    exact ⟨_, rfl⟩
  obtain ⟨hprogress, hhistory⟩ := hremembers.queue rfl hstep
  have hst' : q'.st = { timeTraceStart := traceStart (branchLoop n ++ [loopAccess]) } := by
    rw [hprogress, hst]
  have hlog : importLog loopConfig instrMap q' [] = loggedEntries loopConfig q'.history.branchesTaken true
      [entryAt instrMap (branchLoop n) loopAccess] q'.st := by
    rw [importLog, hhistory, hqueue]
    rfl
  have hrow : ∃ row, (entryAt instrMap (branchLoop n) loopAccess, row) ∈
      importLog loopConfig instrMap q' [] := by
    rw [hlog]
    exact exists_row_loggedEntries rfl (by rw [hst']) _
  obtain ⟨row, hrow⟩ := hrow
  have hall : (branchLoop n ++ [loopAccess]).foldlM
      (AdvancedMemoryImporter.importEvent loopConfig instrMap) {} = some q' := by
    rw [List.foldlM_append, hfold]
    simpa using hstep
  have hmem := importLog_append hall hrow
  rw [List.append_nil] at hmem
  exact ⟨row, hmem⟩

/-- The row behind three taken branches has them in its history. -/
theorem jump_histories_iff_branchLoop :
    ∃ row, EndsRow loopConfig loopInstrMap (branchLoop 3 ++ [loopAccess]) (branchLoop 3) loopAccess row ∧
      HasJumpHistory loopConfig (loopInstrMap.mark loopConditional) (branchLoop 3 ++ [loopAccess])
        (branchLoop 3) row := by
  obtain ⟨row, hends⟩ := endsRow_loop loopInstrMap rfl (n := 3) (by decide)
  refine ⟨row, hends, (jump_histories_iff loopConfig loopInstrMap loopConditional loopInstrMap_marks _).mpr ?_
    _ _ _ _ rfl hends⟩
  intro front ev back row _ _
  rw [CompleteBehind, CompleteAt, if_pos (Or.inr (by decide))]
  exact fun _ _ _ => rfl

/-- **Jump histories are lost** behind `2 ^ 31 + 1` taken branches, a number that is negative as a `signed`, and
behind any taken branch if the disassembler does not mark it. -/
theorem jump_history_lost :
    (∃ row, EndsRow loopConfig loopInstrMap (branchLoop 2147483649 ++ [loopAccess])
        (branchLoop 2147483649) loopAccess row ∧
      ¬ HasJumpHistory loopConfig (loopInstrMap.mark loopConditional) (branchLoop 2147483649 ++ [loopAccess])
        (branchLoop 2147483649) row) ∧
    ∃ row, EndsRow loopConfig capstoneInstrMap (branchLoop 1 ++ [loopAccess]) (branchLoop 1) loopAccess row ∧
      ¬ HasJumpHistory loopConfig (capstoneInstrMap.mark loopConditional) (branchLoop 1 ++ [loopAccess])
        (branchLoop 1) row := by
  have hmem : loopAccess.hasMemaddr = true := rfl
  constructor
  · obtain ⟨row, hends⟩ := endsRow_loop loopInstrMap rfl (n := 2147483649) (by decide)
    refine ⟨row, hends, ?_⟩
    rw [loopInstrMap_marks.mark_eq, hends.hasJumpHistory_iff, CompleteBehind, outcomes_mem _ _ hmem,
      outcomes_mem _ _ hmem, outcomes_loop, CompleteAt, List.length_replicate, if_neg (by decide)]
    intro hnone
    refine hnone.2 2147483648 (by decide) (by decide) ?_
    rw [List.getElem?_replicate, if_pos (by decide)]
  · obtain ⟨row, hends⟩ := endsRow_loop capstoneInstrMap rfl (n := 1) (by decide)
    refine ⟨row, hends, ?_⟩
    rintro ⟨opcode, mask, hmask, hhistory⟩
    -- without the mark no outcome is known, and the mask is the one of an empty history
    obtain ⟨opcode', mask', hmask', hempty⟩ := hends.hasJumpHistory_iff.mpr fun _ _ _ => rfl
    rw [hmask] at hmask'
    simp only [List.cons.injEq, Option.some.injEq, and_true] at hmask'
    obtain ⟨-, rfl⟩ := hmask'
    exact absurd ((hhistory (-1) (by decide) (by decide)).symm.trans (hempty (-1) (by decide) (by decide)))
      (by decide)

end FailStar.ImportTrace
