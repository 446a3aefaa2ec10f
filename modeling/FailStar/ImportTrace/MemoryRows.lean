import Mathlib.Data.List.TakeWhile
import FailStar.Foundations.Delay
import FailStar.ImportTrace.AdvancedMemory
import FailStar.ImportTrace.TraceTime

/-! # The rows of memory events

When the database accepts all rows, `MemoryImporter::handle_mem_event` is a sequence of operations on single
bytes. Which equivalence classes are open behind an operation does not depend on the start of the trace, but the
row it inserts may.

* **`openByte`**, **`rowByte`** — an operation on the open equivalence classes, and its row.
* **`Records`** — an importer has performed some operations.
* **`entriesOf`** — the memory events of a trace, as they are handed to `handle_mem_event`.
* **`Written`** — the rows of some entries, of which the first ones were inserted before the trace start was
  known; **`importEvents_memory`** — those of the `MemoryImporter`. -/

namespace FailStar.ImportTrace

open Std

/-- The columns that all memory importers have. -/
def TraceRow.shared (row : TraceRow) : TraceRow := { row with additional := [] }

/-! ## Operations on single bytes -/

/-- A byte of a memory event. -/
abbrev Touch := DelayedTraceEntry × ℕ

/-- The open equivalence classes behind an operation. -/
def openByte (cfg : Config) (openEcs : TreeMap ℕ Margin) (x : Touch) : TreeMap ℕ Margin :=
  if cfg.isMatching x.2 then
    if x.1.instr < (openEcs[x.2]?.getD {}).dyninstr then openEcs.insertIfNew x.2 {}
    else
      (openEcs.insertIfNew x.2 {}).insert x.2
        { dyninstr := (x.1.instr + 1) % 2 ^ 32
          ip := cfg.address x.1.ev.ip
          time := (x.1.curtime + 1) % 2 ^ 64 }
  else openEcs

/-- The row is inserted: it is not one of the write ECs that are left out. -/
def Config.imports (cfg : Config) (ev : TraceEvent) : Bool := cfg.importWriteEcs || ev.getAccesstype ≠ .write

/-- The left margin of the row: `getOpenEC` when `start` is `m_time_trace_start`. -/
def leftMargin (start : ℕ) (ec : Margin) : Margin := { ec with time := if ec.time = 0 then start else ec.time }

/-- The row of an operation, if there is one. -/
def rowByte (cfg : Config) (start : ℕ) (openEcs : TreeMap ℕ Margin) (x : Touch) : List TraceRow :=
  let ec := openEcs[x.2]?.getD {}
  if cfg.isMatching x.2 ∧ ec.dyninstr ≤ x.1.instr ∧ cfg.imports x.1.ev then
    [(Importer.traceRow cfg (leftMargin start ec)
      { dyninstr := x.1.instr, ip := cfg.address x.1.ev.ip, time := x.1.curtime }
      { x.1.ev with memaddr := some x.2, width := some 1 } false).shared]
  else []

/-- The bytes of a memory event, in the order of the loop. -/
def DelayedTraceEntry.touches (cfg : Config) (entry : DelayedTraceEntry) : List Touch :=
  (List.range' (cfg.address entry.ev.getMemaddr)
    (cfg.address (entry.ev.getMemaddr + entry.ev.getWidth) - cfg.address entry.ev.getMemaddr)).map fun a =>
      (entry, a)

/-- The bytes of some memory events. -/
def touchesOf (cfg : Config) (entries : List DelayedTraceEntry) : List Touch :=
  entries.flatMap (DelayedTraceEntry.touches cfg)

theorem touchesOf_append (cfg : Config) (xs ys : List DelayedTraceEntry) :
    touchesOf cfg (xs ++ ys) = touchesOf cfg xs ++ touchesOf cfg ys := List.flatMap_append

/-- The database accepts all rows. -/
def Config.Accepts (cfg : Config) : Prop := ∀ rows row, cfg.insertMultiple rows row = true

/-- **The importer has performed the operations** `xs`. -/
structure Records (cfg : Config) (xs : List Touch) (st st' : Importer) : Prop where
  openEcs : st'.openEcs = xs.foldl (openByte cfg) st.openEcs
  rows : st'.rows.map TraceRow.shared =
    st.rows.map TraceRow.shared ++ emit (openByte cfg) (rowByte cfg) st.timeTraceStart st.openEcs xs
  start : st'.timeTraceStart = st.timeTraceStart

variable {cfg : Config} {st st' : Importer} {xs ys : List DelayedTraceEntry}

theorem records_refl (cfg : Config) (st : Importer) : Records cfg [] st st :=
  ⟨rfl, (List.append_nil _).symm, rfl⟩

theorem Records.trans {xs ys : List Touch} {st₁ st₂ st₃ : Importer} (h₁ : Records cfg xs st₁ st₂)
    (h₂ : Records cfg ys st₂ st₃) : Records cfg (xs ++ ys) st₁ st₃ where
  openEcs := by rw [h₂.openEcs, h₁.openEcs, List.foldl_append]
  rows := by rw [h₂.rows, h₁.rows, h₁.start, h₁.openEcs, emit_append, List.append_assoc]
  start := h₂.start.trans h₁.start

theorem tryTraceEvent_of_accepts (hdb : cfg.Accepts) (st : Importer) (left right : Margin) (ev : TraceEvent)
    (isFake : Bool) :
    st.tryTraceEvent cfg left right ev isFake =
      ({ st with
          rows := st.rows ++ if cfg.imports ev then [Importer.traceRow cfg left right ev isFake] else [] },
            true) := by
  rw [Importer.tryTraceEvent]
  by_cases hskip : cfg.importWriteEcs = false ∧ ev.getAccesstype = .write
  · rw [if_pos hskip, if_neg (by simp [Config.imports, hskip.1, hskip.2]), List.append_nil]
  · rw [if_neg hskip, if_pos]
    · dsimp only
      rw [hdb]
    · by_contra himports
      simp only [Config.imports, Bool.or_eq_true, decide_eq_true_eq, not_or, Bool.not_eq_true,
        not_not] at himports
      exact hskip himports

theorem records_tryByte (hdb : cfg.Accepts) (entry : DelayedTraceEntry) (st : Importer) (a : ℕ) :
    (st.tryByte cfg cfg.isMatching entry.curtime entry.instr entry.ev 1 a).2 = true ∧
      Records cfg [(entry, a)] st
        (st.tryByte cfg cfg.isMatching entry.curtime entry.instr entry.ev 1 a).1 := by
  unfold Importer.tryByte
  by_cases hm : cfg.isMatching a = true
  · rw [if_pos hm]
    dsimp only [Importer.getOpenEC]
    by_cases hlt : entry.instr < (st.openEcs[a]?.getD {}).dyninstr
    · -- a zero-sized interval
      rw [if_pos hlt]
      refine ⟨rfl, ?_, ?_, rfl⟩
      · rw [List.foldl_cons, List.foldl_nil, openByte, if_pos hm, if_pos hlt]
      · rw [emit, emit, rowByte, if_neg (fun h => absurd h.2.1 (Nat.not_le_of_lt hlt)), List.append_nil,
          List.append_nil]
    · rw [if_neg hlt, tryTraceEvent_of_accepts hdb]
      refine ⟨rfl, ?_, ?_, rfl⟩
      · rw [List.foldl_cons, List.foldl_nil, openByte, if_pos hm, if_neg hlt]
        rfl
      · show List.map TraceRow.shared (st.rows ++ _) = _
        rw [List.map_append, emit, emit, List.append_nil, rowByte]
        have himports : ∀ memaddr width, cfg.imports { entry.ev with memaddr, width } = cfg.imports entry.ev :=
          fun _ _ => rfl
        rw [himports]
        by_cases hi : cfg.imports entry.ev = true
        · have hrow : cfg.isMatching a = true ∧ (st.openEcs[a]?.getD {}).dyninstr ≤ entry.instr ∧
              cfg.imports entry.ev = true := ⟨hm, Nat.le_of_not_lt hlt, hi⟩
          rw [if_pos hi, if_pos hrow]
          rfl
        · rw [if_neg hi, if_neg (fun h => hi h.2.2)]
          rfl
  · rw [if_neg hm]
    refine ⟨rfl, ?_, ?_, rfl⟩
    · rw [List.foldl_cons, List.foldl_nil, openByte, if_neg hm]
    · rw [emit, emit, rowByte, if_neg (fun h => hm h.1), List.append_nil, List.append_nil]

/-- The loop over all accessed bytes performs the operations on them. -/
theorem records_foldUntil (hdb : cfg.Accepts) (entry : DelayedTraceEntry) (as : List ℕ) (st : Importer) :
    (foldUntil (Importer.tryByte cfg cfg.isMatching entry.curtime entry.instr entry.ev 1) st as).2 = true ∧
      Records cfg (as.map fun a => (entry, a)) st
        (foldUntil (Importer.tryByte cfg cfg.isMatching entry.curtime entry.instr entry.ev 1) st as).1 := by
  induction as generalizing st with
  | nil => exact ⟨rfl, records_refl cfg st⟩
  | cons a as ih =>
    obtain ⟨hok, hfirst⟩ := records_tryByte hdb entry st a
    rw [foldUntil, if_pos hok]
    exact ⟨(ih _).1, hfirst.trans (ih _).2⟩

/-- **`MemoryImporter::handle_mem_event` performs the operations on its bytes.** -/
theorem records_tryMemEvent (hdb : cfg.Accepts) (entry : DelayedTraceEntry) (st : Importer) :
    (MemoryImporter.tryMemEvent cfg st entry.curtime entry.instr entry.ev).2 = true ∧
      Records cfg (entry.touches cfg) st
        (MemoryImporter.tryMemEvent cfg st entry.curtime entry.instr entry.ev).1 :=
  records_foldUntil hdb entry _ st

theorem Records.of_data {xs : List Touch} {data : TraceEvent → Bool → List (Option ℕ)}
    (h : Records { cfg with databaseInsertData := data } xs st st') : Records cfg xs st st' :=
  ⟨h.openEcs, h.rows, h.start⟩

theorem records_handleMemEvent (hdb : cfg.Accepts) (entry : DelayedTraceEntry) (st : Importer) :
    ∃ st', MemoryImporter.handleMemEvent cfg st entry.curtime entry.instr entry.ev = some st' ∧
      Records cfg (entry.touches cfg) st st' := by
  obtain ⟨hok, hrec⟩ := records_tryMemEvent hdb entry st
  refine ⟨_, ?_, hrec⟩
  rw [MemoryImporter.handleMemEvent_eq_succeeded]
  exact succeeded_eq_some.mpr (Prod.ext rfl hok)

/-! ## The memory events of a trace -/

section Trace

variable {instrMap : InstrMap} {events : List TraceEvent} {ev : TraceEvent} {p p' : Progress}

/-- The instruction is a conditional branch. -/
def isBranch (instrMap : InstrMap) (ev : TraceEvent) : Bool :=
  (instrMap.find ev).any fun opcode => opcode.conditionalBranch

/-- **The number of branch outcomes that are known behind some events**: the next instruction tells whether a
branch was taken. -/
def knownBranches (instrMap : InstrMap) (events : List TraceEvent) : ℕ :=
  (events.filter fun ev => !ev.hasMemaddr).dropLast.countP (isBranch instrMap)

/-- The memory event `ev` behind the events `front`, as it is handed to `handle_mem_event`. -/
def entryAt (instrMap : InstrMap) (front : List TraceEvent) (ev : TraceEvent) : DelayedTraceEntry where
  curtime := traceTime (front ++ [ev]) % 2 ^ 64
  instr := instructionCount front - 1
  ev := ev
  opcode := ((instrMap.find ev).map fun opcode => opcode.opcode).getD 0
  branchesBefore := knownBranches instrMap front % 2 ^ 32

/-- The memory events behind `front`. -/
def entriesFrom (instrMap : InstrMap) : List TraceEvent → List TraceEvent → List DelayedTraceEntry
  | _, [] => []
  | front, ev :: events =>
    (if ev.hasMemaddr then [entryAt instrMap front ev] else []) ++ entriesFrom instrMap (front ++ [ev]) events

/-- **The memory events of a trace**, as they are handed to `handle_mem_event`. -/
def entriesOf (instrMap : InstrMap) (events : List TraceEvent) : List DelayedTraceEntry :=
  entriesFrom instrMap [] events

theorem entriesFrom_append (front xs ys : List TraceEvent) :
    entriesFrom instrMap front (xs ++ ys) =
      entriesFrom instrMap front xs ++ entriesFrom instrMap (front ++ xs) ys := by
  induction xs generalizing front with
  | nil => rw [List.append_nil]; rfl
  | cons x xs ih =>
    rw [List.cons_append, entriesFrom, ih, entriesFrom, List.append_assoc, List.append_assoc,
      List.singleton_append]

theorem entriesOf_append (xs ys : List TraceEvent) :
    entriesOf instrMap (xs ++ ys) = entriesOf instrMap xs ++ entriesFrom instrMap xs ys := by
  rw [entriesOf, entriesFrom_append]
  rfl

theorem entriesOf_concat (events : List TraceEvent) (ev : TraceEvent) :
    entriesOf instrMap (events ++ [ev]) =
      entriesOf instrMap events ++ if ev.hasMemaddr then [entryAt instrMap events ev] else [] := by
  rw [entriesOf_append, entriesFrom, entriesFrom, List.append_nil]

/-- The trace can be imported: no time delta is negative, and the instructions can be counted. -/
def Readable (events : List TraceEvent) : Prop :=
  (∀ ev ∈ events, ∀ delta ∈ ev.timeDelta, 0 ≤ delta) ∧ instructionCount events < 2 ^ 32

theorem Readable.front (h : Readable (events ++ [ev])) : Readable events := by
  refine ⟨fun ev' hev' => h.1 ev' (List.mem_append_left _ hev'), Nat.lt_of_le_of_lt ?_ h.2⟩
  rw [instructionCount_concat]
  exact Nat.le_add_right _ _

/-- The variables of the loop in `copy_to_database` behind some events. -/
structure Clock (events : List TraceEvent) (p : Progress) : Prop where
  time : p.curtime = traceTime events % 2 ^ 64
  start : p.st.timeTraceStart = traceStart events
  instr : p.instr = instructionCount events
  memaccess : p.instrMemaccess = instructionCount events - 1
  ip : p.ip = (events.getLast?.map fun ev => ev.ip).getD 0

theorem clock_init : Clock [] {} := ⟨rfl, rfl, rfl, rfl, rfl⟩

theorem Clock.advanceTime (h : Clock events p) (hdelta : ∀ delta ∈ ev.timeDelta, 0 ≤ delta) :
    advanceTime p ev = some { p with
      curtime := traceTime (events ++ [ev]) % 2 ^ 64
      st := { p.st with timeTraceStart := traceStart (events ++ [ev]) } } := by
  unfold ImportTrace.advanceTime
  rw [traceTime_concat, traceStart_concat, ← h.start, timeSince]
  cases htime : ev.timeDelta with
  | none =>
    have hstart : (if p.st.timeTraceStart = 0 then 0 else p.st.timeTraceStart) = p.st.timeTraceStart := by
      split <;> omega
    simp only [Option.getD_none, Int.toNat_zero, Nat.add_zero]
    rw [← h.time, hstart]
  | some delta =>
    simp only [Option.getD_some]
    rw [if_pos (hdelta delta htime), h.time, Nat.mod_add_mod]

theorem nonneg_of_advanceTime (h : ImportTrace.advanceTime p ev = some p') :
    ∀ delta ∈ ev.timeDelta, 0 ≤ delta := by
  unfold ImportTrace.advanceTime at h
  intro delta hdelta
  rw [Option.mem_def.mp hdelta] at h
  dsimp only at h
  by_contra hneg
  rw [if_neg hneg] at h
  cases h

/-! ## What was written before the trace start was known -/

/-- The events before the first time delta. -/
def early (events : List TraceEvent) : List TraceEvent := events.takeWhile fun ev => timeSince ev = 0

theorem traceStart_eq_zero_iff : traceStart events = 0 ↔ ∀ ev ∈ events, timeSince ev = 0 := by
  induction events using List.reverseRecOn with
  | nil => simp [traceStart]
  | append_singleton events ev ih =>
    rw [traceStart_concat]
    constructor
    · intro h
      split at h
      · rename_i hzero
        intro ev' hev'
        obtain hev' | hev' := List.mem_append.mp hev'
        · exact ih.mp hzero ev' hev'
        · rwa [List.mem_singleton.mp hev']
      · exact absurd h ‹_›
    · intro h
      rw [if_pos (ih.mpr fun ev' hev' => h ev' (List.mem_append_left _ hev'))]
      exact h ev (List.mem_append_right _ (List.mem_singleton_self ev))

theorem early_of_traceStart (h : traceStart events = 0) : early events = events :=
  List.takeWhile_eq_self_iff.mpr fun ev hev => decide_eq_true (traceStart_eq_zero_iff.mp h ev hev)

theorem early_concat_of_ne (h : traceStart events ≠ 0) (ev : TraceEvent) :
    early (events ++ [ev]) = early events := by
  have hlate : (events.takeWhile fun ev => timeSince ev = 0).length ≠ events.length := by
    intro hlen
    refine h (traceStart_eq_zero_iff.mpr fun ev hev => ?_)
    have heq := (List.takeWhile_prefix fun ev => decide (timeSince ev = 0)).eq_of_length hlen
    exact of_decide_eq_true (List.takeWhile_eq_self_iff.mp heq ev hev)
  rw [early, List.takeWhile_append, if_neg hlate]
  rfl

theorem early_concat_of_late (h : traceStart events = 0) (hev : timeSince ev ≠ 0) :
    early (events ++ [ev]) = events := by
  rw [early, List.takeWhile_append_of_pos fun ev hev => decide_eq_true (traceStart_eq_zero_iff.mp h ev hev),
    List.takeWhile_cons_of_neg (by simpa using hev), List.append_nil]

/-- **The entries `xs` were inserted before the trace start was known**, and the entries `ys` afterwards. -/
structure Written (cfg : Config) (start : ℕ) (xs ys : List DelayedTraceEntry) (st : Importer) : Prop where
  openEcs : st.openEcs = (touchesOf cfg (xs ++ ys)).foldl (openByte cfg) ∅
  rows : st.rows.map TraceRow.shared =
    emit (openByte cfg) (rowByte cfg) 0 ∅ (touchesOf cfg xs) ++
      emit (openByte cfg) (rowByte cfg) start ((touchesOf cfg xs).foldl (openByte cfg) ∅) (touchesOf cfg ys)

variable {start : ℕ}

/-- As long as the start is not known, it does not matter where it would have been. -/
theorem Written.merge (h : Written cfg 0 xs ys st) (start : ℕ) : Written cfg start (xs ++ ys) [] st where
  openEcs := by rw [List.append_nil, h.openEcs]
  rows := by
    rw [h.rows, touchesOf_append, emit_append]
    exact (List.append_nil _).symm

theorem Written.record {new : List DelayedTraceEntry} (h : Written cfg start xs ys st)
    (hrec : Records cfg (touchesOf cfg new) { st with timeTraceStart := start } st') :
    Written cfg start xs (ys ++ new) st' where
  openEcs := by rw [hrec.openEcs, h.openEcs, ← List.append_assoc, touchesOf_append cfg (xs ++ ys),
    List.foldl_append]
  rows := by
    have hopen : st.openEcs =
        (touchesOf cfg ys).foldl (openByte cfg) ((touchesOf cfg xs).foldl (openByte cfg) ∅) := by
      rw [h.openEcs, touchesOf_append, List.foldl_append]
    rw [hrec.rows, touchesOf_append, emit_append, ← List.append_assoc, ← h.rows, ← hopen]

/-- **What has been inserted behind some events**: `ins` says which entries are inserted by then, and those that
were inserted in the early part of the trace were inserted without a start. -/
def Follows (cfg : Config) (ins : List TraceEvent → List DelayedTraceEntry) (events : List TraceEvent)
    (st : Importer) : Prop :=
  ∃ ys, ins events = ins (early events) ++ ys ∧ Written cfg (traceStart events) (ins (early events)) ys st

variable {ins : List TraceEvent → List DelayedTraceEntry}

/-- **One more event.** -/
theorem Follows.step (h : Follows cfg ins events st) (new : List DelayedTraceEntry)
    (hnew : ins (events ++ [ev]) = ins events ++ new)
    (hrec : Records cfg (touchesOf cfg new) { st with timeTraceStart := traceStart (events ++ [ev]) } st') :
    Follows cfg ins (events ++ [ev]) st' := by
  obtain ⟨ys, hys, hwritten⟩ := h
  by_cases hstart : traceStart events = 0
  · -- everything was inserted without a start so far
    rw [early_of_traceStart hstart] at hys hwritten
    obtain rfl : ys = [] := List.self_eq_append_right.mp hys
    rw [hstart] at hwritten
    have hstep := (hwritten.merge (traceStart (events ++ [ev]))).record hrec
    rw [List.append_nil, List.nil_append] at hstep
    by_cases hev : timeSince ev = 0
    · have hstart' : traceStart (events ++ [ev]) = 0 := by
        rw [traceStart_concat, if_pos hstart, hev]
      refine ⟨[], ?_, ?_⟩
      · rw [early_of_traceStart hstart', List.append_nil]
      · rw [early_of_traceStart hstart', hnew, hstart']
        rw [hstart'] at hstep
        exact hstep.merge 0
    · refine ⟨new, ?_, ?_⟩
      · rw [early_concat_of_late hstart hev, hnew]
      · rw [early_concat_of_late hstart hev]
        exact hstep
  · have hsame : traceStart (events ++ [ev]) = traceStart events := by
      rw [traceStart_concat, if_neg hstart]
    rw [hsame] at hrec
    refine ⟨ys ++ new, ?_, ?_⟩
    · rw [early_concat_of_ne hstart, hnew, hys, List.append_assoc]
    · rw [early_concat_of_ne hstart, hsame]
      exact hwritten.record hrec

theorem follows_init (hins : ins [] = []) : Follows cfg ins [] {} := by
  refine ⟨[], ?_, ?_, ?_⟩
  · rw [List.append_nil]
    rfl
  · show ∅ = (touchesOf cfg (ins [] ++ [])).foldl (openByte cfg) ∅
    rw [hins]
    rfl
  · show [] = emit (openByte cfg) (rowByte cfg) 0 ∅ (touchesOf cfg (ins [])) ++ _
    rw [hins]
    rfl

/-! ## The MemoryImporter -/

theorem Clock.of_mem (hmem : ev.hasMemaddr = true) (hinstr : p'.instr = instructionCount events)
    (hmemaccess : p'.instrMemaccess = instructionCount events - 1)
    (htime : p'.curtime = traceTime (events ++ [ev]) % 2 ^ 64)
    (hstart : p'.st.timeTraceStart = traceStart (events ++ [ev])) (hip : p'.ip = ev.ip) :
    Clock (events ++ [ev]) p' := by
  have hcount : instructionCount (events ++ [ev]) = instructionCount events := by
    rw [instructionCount_concat, if_pos hmem, Nat.add_zero]
  refine ⟨htime, hstart, ?_, ?_, ?_⟩
  · rw [hcount, hinstr]
  · rw [hcount, hmemaccess]
  · rw [List.getLast?_concat, hip]
    rfl

theorem Clock.of_instr (hmem : ¬ ev.hasMemaddr = true) (hinstr : p'.instr = instructionCount events + 1)
    (hmemaccess : p'.instrMemaccess = instructionCount events)
    (htime : p'.curtime = traceTime (events ++ [ev]) % 2 ^ 64)
    (hstart : p'.st.timeTraceStart = traceStart (events ++ [ev])) (hip : p'.ip = ev.ip) :
    Clock (events ++ [ev]) p' := by
  have hcount : instructionCount (events ++ [ev]) = instructionCount events + 1 := by
    rw [instructionCount_concat, if_neg hmem]
  refine ⟨htime, hstart, ?_, ?_, ?_⟩
  · rw [hcount, hinstr]
  · rw [hcount, hmemaccess]
    rfl
  · rw [List.getLast?_concat, hip]
    rfl

theorem Readable.instr_ne (h : Readable (events ++ [ev])) (hmem : ¬ ev.hasMemaddr = true)
    (hclock : Clock events p) : p.instr ≠ 2 ^ 32 - 1 := by
  have hcount := h.2
  rw [instructionCount_concat, if_neg hmem, ← hclock.instr] at hcount
  omega

/-- The checks of the loop make a trace readable. -/
theorem Readable.concat {q : Progress} (h : Readable events) (hclock : Clock events p)
    (htime : ImportTrace.advanceTime p ev = some q) (hinstr : ¬ ev.hasMemaddr = true → q.instr ≠ 2 ^ 32 - 1) :
    Readable (events ++ [ev]) := by
  have hdelta := nonneg_of_advanceTime htime
  rw [hclock.advanceTime hdelta] at htime
  cases htime
  refine ⟨?_, ?_⟩
  · intro ev' hev'
    obtain hev' | hev' := List.mem_append.mp hev'
    · exact h.1 ev' hev'
    · rwa [List.mem_singleton.mp hev']
  · have hcount := h.2
    rw [instructionCount_concat]
    split
    · exact hcount
    · rename_i hmem
      have hne := hinstr hmem
      rw [hclock.instr] at hne
      omega

theorem Follows.importEvent_memory (hdb : cfg.Accepts) (h : Readable (events ++ [ev])) (hclock : Clock events p)
    (hfollows : Follows cfg (entriesOf instrMap) events p.st) :
    ∃ p', importEvent cfg .memory p ev = some p' ∧ Clock (events ++ [ev]) p' ∧
      Follows cfg (entriesOf instrMap) (events ++ [ev]) p'.st := by
  have hdelta := h.1 ev (List.mem_append_right _ (List.mem_singleton_self ev))
  rw [importEvent, hclock.advanceTime hdelta, Option.bind_some]
  by_cases hmem : ev.hasMemaddr = true
  · rw [if_pos hmem]
    obtain ⟨st', hhandle, hrec⟩ := records_handleMemEvent hdb (entryAt instrMap events ev)
      { p.st with timeTraceStart := traceStart (events ++ [ev]) }
    have hmemaccess : p.instrMemaccess = (entryAt instrMap events ev).instr := hclock.memaccess
    dsimp only [Kind.handleMemEvent]
    rw [hmemaccess]
    refine ⟨_, Option.map_eq_some_iff.mpr ⟨st', hhandle, rfl⟩, ?_, ?_⟩
    · exact .of_mem hmem hclock.instr rfl rfl hrec.start rfl
    · refine hfollows.step [entryAt instrMap events ev] ?_ ?_
      · rw [entriesOf_concat, if_pos hmem]
      · rw [touchesOf, List.flatMap_singleton]
        exact hrec
  · rw [if_neg hmem, if_neg (h.instr_ne hmem hclock)]
    refine ⟨_, rfl, .of_instr hmem (congrArg (· + 1) hclock.instr) hclock.instr rfl rfl rfl, ?_⟩
    refine hfollows.step [] ?_ (records_refl cfg _)
    rw [entriesOf_concat, if_neg hmem]

/-- **The rows of the `MemoryImporter`**: the memory events of a readable trace, one after the other. -/
theorem importEvents_memory (hdb : cfg.Accepts) (instrMap : InstrMap) (h : Readable events) :
    ∃ p, events.foldlM (importEvent cfg .memory) {} = some p ∧ Clock events p ∧
      Follows cfg (entriesOf instrMap) events p.st := by
  induction events using List.reverseRecOn with
  | nil => exact ⟨_, rfl, clock_init, follows_init rfl⟩
  | append_singleton events ev ih =>
    obtain ⟨p, hp, hclock, hfollows⟩ := ih h.front
    obtain ⟨p', hstep, hclock', hfollows'⟩ := hfollows.importEvent_memory hdb h hclock
    refine ⟨p', ?_, hclock', hfollows'⟩
    rw [List.foldlM_append, hp]
    simpa using hstep

theorem readable_of_memory (hdb : cfg.Accepts) (h : events.foldlM (importEvent cfg .memory) {} = some p) :
    Readable events := by
  induction events using List.reverseRecOn generalizing p with
  | nil => exact ⟨by simp, by decide⟩
  | append_singleton events ev ih =>
    rw [List.foldlM_append] at h
    obtain ⟨p₀, hp₀, hstep⟩ := Option.bind_eq_some_iff.mp h
    have hfront := ih hp₀
    obtain ⟨p₁, hp₁, hclock, -⟩ := importEvents_memory hdb (fun _ => none) hfront
    obtain rfl : p₀ = p₁ := Option.some.inj (hp₀.symm.trans hp₁)
    rw [List.foldlM_cons] at hstep
    obtain ⟨p₂, hevent, -⟩ := Option.bind_eq_some_iff.mp hstep
    obtain ⟨q, htime, hevent⟩ := Option.bind_eq_some_iff.mp hevent
    refine hfront.concat hclock htime fun hmem hoverflow => ?_
    rw [if_neg hmem, if_pos hoverflow] at hevent
    cases hevent

end Trace

/-! ## The end of the trace -/

/-- The right margin of all fake rows. -/
def Importer.lastMargin (st : Importer) : Margin :=
  { dyninstr := st.lastInstr, ip := st.lastIp, time := st.lastTime }

/-- The fake event that closes an open equivalence class. -/
def fakeEvent (cfg : Config) (right : Margin) (a : ℕ) : TraceEvent :=
  { ip := right.ip, memaddr := some a, width := some 1, accesstype := some cfg.faultspaceRightmargin }

/-- The fake row of an open equivalence class, if there is one. -/
def fakeRow (cfg : Config) (right : Margin) (lastuse : ℕ × Margin) : List TraceRow :=
  if right.dyninstr < lastuse.2.dyninstr then []
  else if cfg.imports (fakeEvent cfg right lastuse.1) then
    [(Importer.traceRow cfg lastuse.2 right (fakeEvent cfg right lastuse.1) true).shared]
  else []

theorem closeEcInterval_of_accepts (hdb : cfg.Accepts) (st : Importer) (lastuse : ℕ × Margin) :
    ∃ st', closeEcInterval cfg st lastuse = some st' ∧ st'.lastMargin = st.lastMargin ∧
      st'.rows.map TraceRow.shared = st.rows.map TraceRow.shared ++ fakeRow cfg st.lastMargin lastuse := by
  rw [closeEcInterval]
  dsimp only
  by_cases hlt : st.lastInstr < lastuse.2.dyninstr
  · have hlt' : st.lastMargin.dyninstr < lastuse.2.dyninstr := hlt
    rw [if_pos hlt, fakeRow, if_pos hlt', List.append_nil]
    exact ⟨st, rfl, rfl, rfl⟩
  · have hlt' : ¬ st.lastMargin.dyninstr < lastuse.2.dyninstr := hlt
    rw [if_neg hlt, fakeRow, if_neg hlt', Importer.addTraceEvent_eq_succeeded, tryTraceEvent_of_accepts hdb]
    refine ⟨_, rfl, rfl, ?_⟩
    rw [List.map_append]
    congr 1
    exact apply_ite (List.map TraceRow.shared) _ _ _

/-- **`close_ec_intervals` inserts the fake rows.** -/
theorem closeEcIntervals_of_accepts (hdb : cfg.Accepts) (st : Importer) :
    ∃ st', closeEcIntervals cfg st = some st' ∧
      st'.rows.map TraceRow.shared =
        st.rows.map TraceRow.shared ++ st.openEcs.toList.flatMap (fakeRow cfg st.lastMargin) := by
  rw [closeEcIntervals]
  generalize st.openEcs.toList = es
  induction es generalizing st with
  | nil => exact ⟨st, rfl, (List.append_nil _).symm⟩
  | cons e es ih =>
    obtain ⟨st₁, hst₁, hmargin, hrows₁⟩ := closeEcInterval_of_accepts hdb st e
    obtain ⟨st', hst', hrows'⟩ := ih st₁
    refine ⟨st', ?_, ?_⟩
    · rw [List.foldlM_cons, hst₁]
      exact hst'
    · rw [hrows', hrows₁, hmargin, List.flatMap_cons, List.append_assoc]

theorem openUnusedEcIntervals_with_rows (cfg : Config) (kind : Kind) (st : Importer) (rows : List TraceRow) :
    openUnusedEcIntervals cfg kind { st with rows := rows } =
      { openUnusedEcIntervals cfg kind st with rows := rows } := by
  rw [openUnusedEcIntervals, openUnusedEcIntervals]
  generalize kind.unusedAddresses cfg = as
  induction as generalizing st with
  | nil => rfl
  | cons a as ih =>
    rw [List.foldl_cons, List.foldl_cons]
    by_cases ha : a ∈ st.openEcs
    · rw [if_pos ha, if_pos ha]
      exact ih st
    · rw [if_neg ha, if_neg ha]
      exact ih (st.newOpenEC a st.timeTraceStart 0 0)

/-- **The fake rows do not depend on the rows before**: two importers that only differ in their rows insert the
same ones. -/
theorem closed_rows_eq_iff (hdb : cfg.Accepts) (data : TraceEvent → Bool → List (Option ℕ)) (kind : Kind)
    (st : Importer) (rows : List TraceRow) :
    (closeEcIntervals { cfg with databaseInsertData := data }
        (openUnusedEcIntervals cfg kind { st with rows := rows })).map (fun st => st.rows.map TraceRow.shared) =
      (closeEcIntervals cfg (openUnusedEcIntervals cfg kind st)).map (fun st => st.rows.map TraceRow.shared) ↔
    rows.map TraceRow.shared = st.rows.map TraceRow.shared := by
  have hunused := openUnusedEcIntervals_with_rows cfg kind st rows
  have hrows : (openUnusedEcIntervals cfg kind st).rows = st.rows := openUnused_rows _ st
  have hdb' : Config.Accepts { cfg with databaseInsertData := data } := hdb
  obtain ⟨st₁, hst₁, hrows₁⟩ :=
    closeEcIntervals_of_accepts hdb' { openUnusedEcIntervals cfg kind st with rows := rows }
  obtain ⟨st₂, hst₂, hrows₂⟩ := closeEcIntervals_of_accepts hdb (openUnusedEcIntervals cfg kind st)
  rw [hunused, hst₁, hst₂, Option.map_some, Option.map_some, Option.some.injEq, hrows₁, hrows₂, hrows]
  constructor
  · intro h
    exact List.append_cancel_right h
  · intro h
    show List.map TraceRow.shared rows ++ _ = _
    rw [h]
    rfl

end FailStar.ImportTrace
