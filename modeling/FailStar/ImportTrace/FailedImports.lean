import FailStar.Foundations.Oracle
import FailStar.ImportTrace.MemoryRows
import FailStar.ImportTrace.RandomJump
import FailStar.ImportTrace.SanityChecks
import FailStar.Util.Database

/-! # Failed imports

An importer hands its rows to `Database::insert_multiple`, which sends them in batches. The database may reject
any batch. Not every caller looks at the answer.

* **`AnyImporter`** — the five importers; **`AnyImporter.copyToDatabase`** — with the batches they send.
* **`AnyImporter.checks`** — the rows behind which the importer looks at the answer.
* **`accepted_of_insertRows`** — what an importer that comes to the end of a trace has made sure of.
* **`failures_reported`** — when every rejected batch is reported. -/

namespace FailStar.ImportTrace

open Oracle

/-! ## The importers and the database -/

/-- The concrete importers. -/
inductive AnyImporter
  | plain (kind : Kind)
  | advancedMemory (instrMap : InstrMap)
  | randomJump (imp : RandomJumpImporter)

/-- `insert_sql_basic` and `insert_sql_extended`. -/
inductive InsertSql
  | basic
  | extended
  deriving DecidableEq, Repr

/-- The query text a row is inserted with. -/
def TraceRow.insertSql (row : TraceRow) : InsertSql := if row.extended.isSome then .extended else .basic

/-- The database server: the statements it accepts, and whether all sanity checks pass on what the statements
have left in the `trace` table. -/
structure Server where
  accepts : ℕ → List TraceRow → Bool
  checksPass : List (Statement InsertSql TraceRow) → Bool

/-- The answer of `insert_multiple` to a row. -/
def Server.answer (srv : Server) : Oracle TraceRow := Database.answer srv.accepts TraceRow.insertSql

/-- The statements for some rows. -/
def Server.statements (srv : Server) (rows : List TraceRow) : List (Statement InsertSql TraceRow) :=
  Database.statements srv.accepts TraceRow.insertSql rows

/-- The importer inserts into a database with these answers. -/
def Config.asking (cfg : Config) (o : Oracle TraceRow) : Config := { cfg with insertMultiple := o }

namespace AnyImporter

/-- `copy_to_database`, up to the last row. -/
def insertRows (imp : AnyImporter) (cfg : Config) (events : List TraceEvent) : Option Importer :=
  match imp with
  | plain kind => ImportTrace.copyToDatabase cfg kind events
  | advancedMemory instrMap => AdvancedMemoryImporter.copyToDatabase cfg instrMap events
  | randomJump imp => imp.copyToDatabase cfg events

/-- **`copy_to_database`**: the rows and the database behind it, if it returns `true`. -/
def copyToDatabase (imp : AnyImporter) (cfg : Config) (sanitychecks : Bool) (srv : Server)
    (events : List TraceEvent) : Option (List TraceRow × Database InsertSql TraceRow) :=
  (imp.insertRows (cfg.asking srv.answer) events).bind fun st =>
    -- flush cache before sanity checks; the result is not used
    let db := ((Database.replay srv.accepts TraceRow.insertSql st.rows).flush srv.accepts .flush).1
    if sanitychecks && !srv.checksPass db.sent then none else some (st.rows, db)

/-- The rows behind which the importer looks at the answer: all of them; but `insert_delayed_entries` does
not. -/
def checks : AnyImporter → TraceRow → Bool
  | advancedMemory _, row => row.isFake
  | _, _ => true

end AnyImporter

/-! ## Importers that look at every answer -/

variable (cfg : Config) (st : Importer)

theorem heeds_keep : Heeds st.rows Importer.rows fun _ => some st :=
  heeds_silent fun st' hst' => by rw [← Option.some.inj hst']

theorem heeds_addTraceEvent (left right : Margin) (ev : TraceEvent) (isFake : Bool) :
    Heeds st.rows Importer.rows fun o => st.addTraceEvent (cfg.asking o) left right ev isFake := by
  have hask : Heeds st.rows Importer.rows fun o => if o st.rows (Importer.traceRow cfg left right ev isFake) then
      some { st with rows := st.rows ++ [Importer.traceRow cfg left right ev isFake] } else none := heeds_ask rfl
  exact (heeds_keep st).ite (c := cfg.importWriteEcs = false ∧ ev.getAccesstype = .write) hask

theorem heeds_addByte (matching : ℕ → Bool) (curtime instr : ℕ) (ev : TraceEvent) (width a : ℕ) :
    Heeds st.rows Importer.rows fun o => st.addByte (cfg.asking o) matching curtime instr ev width a := by
  have hrow : Heeds st.rows Importer.rows fun o =>
      ((st.getOpenEC a).2.addTraceEvent (cfg.asking o) (st.getOpenEC a).1
        { dyninstr := instr, ip := cfg.address ev.ip, time := curtime }
        { ev with memaddr := some a, width := some width } false).map fun st =>
          st.newOpenEC a ((curtime + 1) % 2 ^ 64) ((instr + 1) % 2 ^ 32) (cfg.address ev.ip) :=
    (heeds_addTraceEvent cfg (st.getOpenEC a).2 (st.getOpenEC a).1 _ _ false).map fun _ => rfl
  have hskip : Heeds st.rows Importer.rows fun _ => some (st.getOpenEC a).2 := heeds_keep (st.getOpenEC a).2
  have hmatching := hskip.ite (c := instr < (st.getOpenEC a).1.dyninstr) hrow
  exact hmatching.ite (c := matching a = true) (heeds_keep st)

theorem heeds_addBytes (matching : ℕ → Bool) (curtime instr : ℕ) (ev : TraceEvent) (width lo hi : ℕ) :
    Heeds st.rows Importer.rows fun o => st.addBytes (cfg.asking o) matching curtime instr ev width lo hi :=
  heeds_foldlM (fun st a => heeds_addByte cfg st matching curtime instr ev width a) _ st

theorem MemoryImporter.heeds_handleMemEvent (curtime instr : ℕ) (ev : TraceEvent) :
    Heeds st.rows Importer.rows fun o => MemoryImporter.handleMemEvent (cfg.asking o) st curtime instr ev :=
  heeds_addBytes cfg st cfg.isMatching curtime instr ev 1 (cfg.address ev.getMemaddr)
    (cfg.address (ev.getMemaddr + ev.getWidth))

theorem InstructionImporter.heeds_handleIpEvent (instrMap : InstrMap) (curtime instr : ℕ) (ev : TraceEvent) :
    Heeds st.rows Importer.rows fun o =>
      InstructionImporter.handleIpEvent instrMap (cfg.asking o) st curtime instr ev := by
  unfold InstructionImporter.handleIpEvent
  cases instrMap.find ev with
  | none => exact heeds_keep st
  | some opcode =>
    exact heeds_addBytes cfg st cfg.isMatching curtime instr { ev with accesstype := some .read } 1
      (cfg.address ev.ip) (cfg.address (ev.ip + opcode.length))

section Register

variable (imp : RegisterImporter) (curtime instr : ℕ) (ev : TraceEvent) (accessType : AccessType)

theorem heeds_addRegisterTrace (info : RegInfo) :
    Heeds st.rows Importer.rows fun o =>
      imp.addRegisterTrace (cfg.asking o) curtime instr ev accessType st info :=
  Heeds.ite
    (heeds_addBytes cfg st (fun _ => cfg.isMatching (cfg.address ev.ip)) curtime instr
      { ev with accesstype := some accessType } 1 (cfg.address info.toDataAddress)
      (cfg.address (info.toDataAddress + info.width / 8)))
    (heeds_addBytes cfg st (fun _ => cfg.isMatching (cfg.address ev.ip)) curtime instr
      { ev with accesstype := some accessType } (info.width / 8) (cfg.address info.toDataAddress)
      (cfg.address (cfg.address info.toDataAddress + 1)))

theorem heeds_addRegister (reg : ℕ) :
    Heeds st.rows Importer.rows fun o => imp.addRegister (cfg.asking o) curtime instr ev accessType st reg := by
  unfold RegisterImporter.addRegister
  cases imp.getFailRegisterInfo reg with
  | none => exact heeds_keep st
  | some info =>
    exact Heeds.ite (heeds_addRegisterTrace cfg st imp curtime instr ev accessType info) (heeds_keep st)

theorem RegisterImporter.heeds_handleIpEvent :
    Heeds st.rows Importer.rows fun o => imp.handleIpEvent (cfg.asking o) st curtime instr ev := by
  have hpc : Heeds st.rows Importer.rows fun o => imp.addInstructionPointer (cfg.asking o) curtime instr ev st :=
    Heeds.ite
      ((heeds_addRegisterTrace cfg st imp curtime instr ev .read imp.infoPc).bind fun st _ =>
        heeds_addRegisterTrace cfg st imp curtime instr ev .write imp.infoPc)
      (heeds_keep st)
  refine hpc.bind fun st _ => ?_
  cases imp.instrMap.find ev with
  | none => exact heeds_keep st
  | some opcode =>
    exact (heeds_foldlM (fun st reg => heeds_addRegister cfg st imp curtime instr ev .read reg) _ st).bind
      fun st _ => heeds_foldlM (fun st reg => heeds_addRegister cfg st imp curtime instr ev .write reg) _ st

end Register

theorem RandomJumpImporter.heeds_handleIpEvent (imp : RandomJumpImporter) (curtime instr : ℕ) (ev : TraceEvent) :
    Heeds st.rows Importer.rows fun o => imp.handleIpEvent (cfg.asking o) st curtime instr ev := by
  unfold RandomJumpImporter.handleIpEvent
  cases imp.jumpToAddresses with
  | none => exact heeds_silent fun st' hst' => by cases hst'
  | some addresses =>
    have hjump : ∀ (st : Importer) (toAddr : ℕ), Heeds st.rows Importer.rows fun o =>
        addJump (cfg.asking o) curtime instr ev st toAddr := by
      intro st toAddr
      exact (heeds_keep st).ite (c := toAddr = ev.ip)
        (heeds_addTraceEvent cfg st { dyninstr := instr, ip := cfg.address ev.ip, time := curtime }
          { dyninstr := instr, ip := cfg.address ev.ip, time := curtime }
          { ev with accesstype := some .read, memaddr := some toAddr, width := some 4 } false)
    exact (heeds_foldlM hjump addresses st).ite
      (c := (cfg.isMatching (cfg.address ev.ip) &&
        imp.mmFrom.all fun mm => mm.isMatching (cfg.address ev.ip)) = true) (heeds_keep st)

theorem Kind.heeds_handleIpEvent (kind : Kind) (curtime instr : ℕ) (ev : TraceEvent) :
    Heeds st.rows Importer.rows fun o => kind.handleIpEvent (cfg.asking o) st curtime instr ev := by
  cases kind with
  | memory => exact heeds_keep st
  | instruction instrMap => exact InstructionImporter.heeds_handleIpEvent cfg st instrMap curtime instr ev
  | register imp => exact RegisterImporter.heeds_handleIpEvent cfg st imp curtime instr ev

theorem Kind.heeds_handleMemEvent (kind : Kind) (curtime instr : ℕ) (ev : TraceEvent) :
    Heeds st.rows Importer.rows fun o => kind.handleMemEvent (cfg.asking o) st curtime instr ev := by
  cases kind with
  | memory => exact MemoryImporter.heeds_handleMemEvent cfg st curtime instr ev
  | instruction instrMap => exact heeds_keep st
  | register imp => exact heeds_keep st

/-! ## Whole traces -/

/-- The rows handed to the database behind some events. -/
def Progress.rows (p : Progress) : List TraceRow := p.st.rows

/-- **One event**, for an importer that looks at the answers in its handlers. -/
theorem heeds_event {handleIp handleMem : Oracle TraceRow → Importer → ℕ → ℕ → TraceEvent → Option Importer}
    (hip : ∀ st curtime instr ev, Heeds st.rows Importer.rows fun o => handleIp o st curtime instr ev)
    (hmem : ∀ st curtime instr ev, Heeds st.rows Importer.rows fun o => handleMem o st curtime instr ev)
    (p : Progress) (ev : TraceEvent) :
    Heeds p.rows Progress.rows fun o =>
      (advanceTime p ev).bind fun p =>
        if ev.hasMemaddr then
          (handleMem o p.st p.curtime p.instrMemaccess ev).map fun st => { p with ip := ev.ip, st }
        else if p.instr = 2 ^ 32 - 1 then none
        else
          (handleIp o p.st p.curtime p.instr ev).map fun st =>
            { p with instrMemaccess := p.instr, instr := p.instr + 1, ip := ev.ip, st } := by
  refine Heeds.bind (heeds_silent fun q hq => (advanceTime_keeps hq).1) fun q _ => ?_
  refine Heeds.ite ((hmem q.st _ _ ev).map fun _ => rfl) (Heeds.ite ?_ ((hip q.st _ _ ev).map fun _ => rfl))
  exact heeds_silent fun t ht => by cases ht

theorem heeds_closeEcIntervals : Heeds st.rows Importer.rows fun o => closeEcIntervals (cfg.asking o) st := by
  refine heeds_foldlM (fun st lastuse => ?_) _ st
  exact Heeds.ite (heeds_keep st)
    (heeds_addTraceEvent cfg st lastuse.2 st.lastMargin (fakeEvent cfg st.lastMargin lastuse.1) true)

theorem openUnusedEcIntervals_asking (o : Oracle TraceRow) (kind : Kind) :
    openUnusedEcIntervals (cfg.asking o) kind st = openUnusedEcIntervals cfg kind st := by
  have haddresses : kind.unusedAddresses (cfg.asking o) = kind.unusedAddresses cfg := by
    cases kind with
    | memory => rfl
    | instruction instrMap => rfl
    | register imp => rfl
  rw [openUnusedEcIntervals, openUnusedEcIntervals, haddresses]

theorem heeds_copyToDatabase (kind : Kind) (events : List TraceEvent) :
    Heeds [] Importer.rows fun o => copyToDatabase (cfg.asking o) kind events := by
  have hevents : Heeds [] Progress.rows fun o => events.foldlM (importEvent (cfg.asking o) kind) {} :=
    heeds_foldlM
      (heeds_event (fun st => Kind.heeds_handleIpEvent cfg st kind) fun st =>
        Kind.heeds_handleMemEvent cfg st kind)
      events {}
  refine hevents.bind fun p _ => ?_
  have hrows : (openUnusedEcIntervals cfg kind (endTrace cfg p)).rows = p.rows :=
    openUnused_rows _ (endTrace cfg p)
  simp only [openUnusedEcIntervals_asking]
  rw [← hrows]
  exact heeds_closeEcIntervals cfg (openUnusedEcIntervals cfg kind (endTrace cfg p))

theorem RandomJumpImporter.heeds_copyToDatabase (imp : RandomJumpImporter) (events : List TraceEvent) :
    Heeds [] Importer.rows fun o => imp.copyToDatabase (cfg.asking o) events := by
  have hevents : Heeds [] Progress.rows fun o => events.foldlM (imp.importEvent (cfg.asking o)) {} :=
    heeds_foldlM
      (heeds_event (fun st => RandomJumpImporter.heeds_handleIpEvent cfg st imp) fun st _ _ _ =>
        heeds_keep st) events {}
  exact hevents.bind fun p _ => heeds_closeEcIntervals cfg (endTrace cfg p)

/-! ## The AdvancedMemoryImporter -/

/-- All rows are those of events of the trace. -/
def Importer.OnlyReal (st : Importer) : Prop := ∀ row ∈ st.rows, row.isFake = false

variable {cfg st}

open AdvancedMemoryImporter in
theorem Importer.OnlyReal.insertDelayedEntries (h : st.OnlyReal) (branchesTaken : List Bool) (finalizing : Bool)
    (entries : List DelayedTraceEntry) :
    (insertDelayedEntries cfg branchesTaken finalizing entries st).2.OnlyReal := by
  obtain ⟨new, hrows, hnew⟩ := (adds_insertDelayedEntries (P := fun row => row.isFake = false) cfg
    (fun _ _ _ _ => rfl) branchesTaken finalizing entries st).rows
  rw [Importer.OnlyReal, hrows]
  exact List.forall_mem_append.mpr ⟨h, hnew⟩

open AdvancedMemoryImporter in
theorem onlyReal_importEvent {instrMap : InstrMap} {p q : Delaying} {ev : TraceEvent} (h : p.st.OnlyReal)
    (hq : AdvancedMemoryImporter.importEvent cfg instrMap p ev = some q) : q.st.OnlyReal := by
  rw [AdvancedMemoryImporter.importEvent] at hq
  obtain ⟨p', htime, hq⟩ := Option.bind_eq_some_iff.mp hq
  have h' : p'.st.OnlyReal := by
    intro row hrow
    rw [(advanceTime_keeps htime).1] at hrow
    exact h row hrow
  split at hq
  · obtain ⟨history, -, rfl⟩ := Option.map_eq_some_iff.mp hq
    exact h'
  · split at hq
    · cases hq
    · rw [← Option.some.inj hq]
      exact h'.insertDelayedEntries _ _ _

open AdvancedMemoryImporter in
theorem onlyReal_importEvents {instrMap : InstrMap} {events : List TraceEvent} {p q : Delaying}
    (h : p.st.OnlyReal)
    (hq : events.foldlM (AdvancedMemoryImporter.importEvent cfg instrMap) p = some q) : q.st.OnlyReal := by
  induction events generalizing p with
  | nil =>
    rw [← Option.some.inj hq]
    exact h
  | cons ev events ih =>
    rw [List.foldlM_cons] at hq
    obtain ⟨p', hp', hq⟩ := Option.bind_eq_some_iff.mp hq
    exact ih (onlyReal_importEvent h hp') hq

theorem isFake_closeEcIntervals {st' : Importer} {new : List TraceRow}
    (hclose : closeEcIntervals cfg st = some st')
    (hnew : st'.rows = st.rows ++ new) : ∀ row ∈ new, row.isFake = true := by
  obtain ⟨new', hrows, hfake⟩ :=
    (adds_closeEcIntervals (P := fun row => row.isFake = true) (fun _ _ _ => rfl) hclose).rows
  rw [List.append_cancel_left (hnew.symm.trans hrows)]
  exact hfake

/-- The importer asks for real rows first, and for fake ones then; those that matter are the fake ones. -/
theorem agrees_fake_iff {o : Oracle TraceRow} {xs new : List TraceRow} (hxs : ∀ row ∈ xs, row.isFake = false)
    (hnew : ∀ row ∈ new, row.isFake = true) :
    o.Agrees xs (xs ++ new) ↔
      ∀ front row, front ++ [row] <+: xs ++ new → row.isFake = true → o front row = true := by
  constructor
  · intro h front row hfront hfake
    refine h.2 front row hfront ?_
    refine List.prefix_of_prefix_length_le (List.prefix_append xs new) ((List.prefix_append _ _).trans hfront) ?_
    by_contra hlt
    have hle : (front ++ [row]).length ≤ xs.length := by
      rw [List.length_append, List.length_singleton]
      omega
    have hmem := (List.prefix_of_prefix_length_le hfront (List.prefix_append xs new) hle).subset
      (List.mem_append_right _ (List.mem_singleton_self row))
    exact absurd hfake (by simp [hxs row hmem])
  · intro h
    refine ⟨List.prefix_append _ _, fun front row hfront hxs' => h front row hfront (hnew row ?_)⟩
    obtain ⟨mid, rfl⟩ := hxs'
    rw [List.append_assoc, List.prefix_append_right_inj] at hfront
    exact hfront.subset (List.mem_append_right _ (List.mem_singleton_self row))

/-! ## The result of an import -/

variable {srv : Server} {events : List TraceEvent}

theorem agrees_answer_iff (rows : List TraceRow) :
    srv.answer.Agrees [] rows ↔
      ∀ s ∈ srv.statements rows, s.FullBy (fun _ => true) → s.accepted = true := by
  rw [Server.statements, Database.answers_iff]
  constructor
  · intro h front row hfront _
    exact h.2 front row hfront List.nil_prefix
  · intro h
    exact ⟨List.nil_prefix, fun front row hfront _ => h front row hfront rfl⟩

theorem agrees_fake_answer_iff {xs new : List TraceRow} (hxs : ∀ row ∈ xs, row.isFake = false)
    (hnew : ∀ row ∈ new, row.isFake = true) :
    srv.answer.Agrees xs (xs ++ new) ↔
      ∀ s ∈ srv.statements (xs ++ new), s.FullBy TraceRow.isFake → s.accepted = true := by
  rw [Server.statements, Database.answers_iff]
  exact agrees_fake_iff hxs hnew

theorem closeEcIntervals_iff {st₀ : Importer} (h : st₀.OnlyReal) :
    closeEcIntervals (cfg.asking srv.answer) st₀ = some st ↔
      closeEcIntervals (cfg.asking lenient) st₀ = some st ∧
        ∀ s ∈ srv.statements st.rows, s.FullBy TraceRow.isFake → s.accepted = true := by
  rw [(heeds_closeEcIntervals cfg st₀).iff srv.answer st]
  refine and_congr_right fun hclose => ?_
  obtain ⟨new, hrows⟩ := (heeds_closeEcIntervals cfg st₀).grows hclose
  have hfake := isFake_closeEcIntervals hclose hrows.symm
  rw [← hrows]
  exact agrees_fake_answer_iff h hfake

/-- **What an importer that comes to the end of a trace has made sure of**: the full batches it looks at are
accepted. -/
theorem accepted_of_insertRows (imp : AnyImporter)
    (h : imp.insertRows (cfg.asking srv.answer) events = some st) :
    ∀ s ∈ srv.statements st.rows, s.FullBy imp.checks → s.accepted = true := by
  cases imp with
  | plain kind => exact (agrees_answer_iff st.rows).mp (((heeds_copyToDatabase cfg kind events).iff _ st).mp h).2
  | randomJump imp =>
    exact (agrees_answer_iff st.rows).mp (((imp.heeds_copyToDatabase cfg events).iff _ st).mp h).2
  | advancedMemory instrMap =>
    obtain ⟨p, hp, hclose⟩ := Option.bind_eq_some_iff.mp h
    have hreal : (AdvancedMemoryImporter.traceEndReached (cfg.asking srv.answer) p).st.OnlyReal :=
      (onlyReal_importEvents (by simp [Importer.OnlyReal]) hp).insertDelayedEntries _ _ _
    have hopened : (openUnusedEcIntervals cfg .memory
        (endTrace cfg (AdvancedMemoryImporter.traceEndReached (cfg.asking srv.answer) p))).OnlyReal := by
      intro row hrow
      rw [openUnusedEcIntervals, openUnused_rows] at hrow
      exact hreal row hrow
    rw [openUnusedEcIntervals_asking] at hclose
    exact ((@closeEcIntervals_iff
      { cfg with databaseInsertData := AdvancedMemoryImporter.databaseInsertData 0 none } st srv _ hopened).mp
        hclose).2

/-- An importer that looks at all answers emits the rows that it emits if all answers are positive. -/
theorem insertRows_lenient {imp : AnyImporter} (himp : ∀ row, imp.checks row = true)
    (h : imp.insertRows (cfg.asking srv.answer) events = some st) :
    imp.insertRows (cfg.asking lenient) events = some st := by
  cases imp with
  | plain kind => exact (((heeds_copyToDatabase cfg kind events).iff _ st).mp h).1
  | randomJump imp => exact (((imp.heeds_copyToDatabase cfg events).iff _ st).mp h).1
  | advancedMemory instrMap =>
    exact absurd (himp (Importer.traceRow cfg {} {} { ip := 0 } false)) Bool.false_ne_true

/-- **The import is complete**: all statements were accepted, and all rows are part of one. -/
def Complete (rows : List TraceRow) (db : Database InsertSql TraceRow) : Prop :=
  (∀ s ∈ db.sent, s.accepted = true) ∧ ∀ row ∈ rows, ∃ s ∈ db.sent, row ∈ s.values ∧ s.accepted = true

theorem complete_of_accepted {rows : List TraceRow} (h : ∀ s ∈ srv.statements rows, s.accepted = true) :
    Complete rows ((Database.replay srv.accepts TraceRow.insertSql rows).flush srv.accepts .flush).1 := by
  refine ⟨h, fun row hrow => ?_⟩
  have hcarried : row ∈ (srv.statements rows).flatMap fun s => s.values := by
    rw [Server.statements, Database.values_statements]
    exact hrow
  obtain ⟨s, hs, hvalues⟩ := List.mem_flatMap.mp hcarried
  exact ⟨s, hs, hvalues, h s hs⟩

/-- **What `copy_to_database` has done** when it returns `true`. -/
theorem insertRows_of_copyToDatabase {imp : AnyImporter} {sanitychecks : Bool} {rows : List TraceRow}
    {db : Database InsertSql TraceRow} (h : imp.copyToDatabase cfg sanitychecks srv events = some (rows, db)) :
    ∃ st, imp.insertRows (cfg.asking srv.answer) events = some st ∧ st.rows = rows ∧
      ((Database.replay srv.accepts TraceRow.insertSql rows).flush srv.accepts .flush).1 = db := by
  obtain ⟨st, hst, hresult⟩ := Option.bind_eq_some_iff.mp h
  dsimp only at hresult
  split at hresult
  · cases hresult
  · obtain ⟨rfl, rfl⟩ := Prod.mk.inj (Option.some.inj hresult)
    exact ⟨st, hst, rfl, rfl⟩

/-- **When every rejected batch is reported.** If the database accepts all statements whose answer is not looked
at (those that are sent because the query text changes, those of the last flush, and those of delayed memory
events), an import that returns `true` is complete. For all databases, it is so only if the rows of the trace
fill whole batches; then, an importer that looks at all answers reports every rejected one. -/
theorem failures_reported (imp : AnyImporter) (cfg : Config) (events : List TraceEvent) :
    (∀ sanitychecks srv rows db, imp.copyToDatabase cfg sanitychecks srv events = some (rows, db) →
      (∀ s ∈ db.sent, ¬ s.FullBy imp.checks → s.accepted = true) → Complete rows db) ∧
    ((∀ srv rows db, imp.copyToDatabase cfg false srv events = some (rows, db) → Complete rows db) →
      ∀ st, imp.insertRows (cfg.asking lenient) events = some st →
        Database.FillsBatches TraceRow.insertSql st.rows) ∧
    ((∀ row, imp.checks row = true) →
      (∀ st, imp.insertRows (cfg.asking lenient) events = some st →
        Database.FillsBatches TraceRow.insertSql st.rows) →
      ∀ sanitychecks srv rows db, imp.copyToDatabase cfg sanitychecks srv events = some (rows, db) →
        Complete rows db) := by
  refine ⟨fun sanitychecks srv rows db h hrest => ?_, fun h st hst => ?_,
    fun himp hfills sanitychecks srv rows db h => ?_⟩
  · obtain ⟨st, hst, rfl, rfl⟩ := insertRows_of_copyToDatabase h
    refine complete_of_accepted fun s hs => ?_
    by_cases hfull : s.FullBy imp.checks
    · exact accepted_of_insertRows imp hst s hs hfull
    · exact hrest s hs hfull
  · -- a database that rejects all statements that are not full batches
    let srv : Server := { accepts := fun _ values => decide (2048 ≤ values.length), checksPass := fun _ => true }
    have hanswer : srv.answer = lenient := by
      funext front row
      exact Database.answer_of_full _ (fun _ _ hle => decide_eq_true hle) front row
    have hresult : imp.copyToDatabase cfg false srv events = some (st.rows,
        ((Database.replay srv.accepts TraceRow.insertSql st.rows).flush srv.accepts .flush).1) := by
      rw [AnyImporter.copyToDatabase, hanswer, hst]
      rfl
    have hlength : ∀ s ∈ srv.statements st.rows, 2048 ≤ s.values.length := by
      intro s hs
      obtain ⟨-, -, i, hanswered⟩ := Database.batched_statements srv.accepts TraceRow.insertSql st.rows s hs
      exact of_decide_eq_true (hanswered.symm.trans ((h srv _ _ hresult).1 s hs))
    exact Database.fillsBatches_of_length hlength
  · obtain ⟨st, hst, rfl, rfl⟩ := insertRows_of_copyToDatabase h
    have hall : imp.checks = fun _ => true := funext himp
    refine complete_of_accepted fun s hs => accepted_of_insertRows imp hst s hs ?_
    rw [hall]
    exact Database.fullBy_of_fillsBatches (hfills st (insertRows_lenient himp hst)) s hs

/-- A server on which rejected statements leave no rows, and whose `trace` table holds nothing else. -/
def Server.ofAccepts (accepts : ℕ → Bool) : Server where
  accepts := fun n _ => accepts n
  checksPass := fun sent =>
    sanityChecks [1] ((sent.filter fun s => s.accepted).flatMap fun s => s.values.map fun row => (1, row)) 1

/-- A byte is read, and extended trace information has been recorded for the read. -/
def extendedRead : List TraceEvent :=
  [{ ip := 0x100 },
    { ip := 0x100, timeDelta := some 1, memaddr := some 0x2000, width := some 1, accesstype := some .read,
      traceExt := some { data := some 7 } },
    { ip := 0x104, timeDelta := some 1 }]

/-- The import of two rows succeeds although the database rejects them, even with the sanity checks, as they do
not find anything wrong with an empty table; also if only the first statement is rejected, which is sent because
the fake row has another query text. -/
theorem rejected_rows_not_reported :
    (((AnyImporter.plain .memory).copyToDatabase { addressBits := 32 } true (.ofAccepts fun _ => false)
        extendedRead).map fun r => (r.1.length, r.2.sent.map fun s => (s.occasion, s.accepted))) =
      some (2, [(.flush, false)]) ∧
    (((AnyImporter.plain .memory).copyToDatabase { addressBits := 32, extendedTrace := true } false
        (.ofAccepts fun n => n ≠ 0) extendedRead).map fun r =>
          (r.1.length, r.2.sent.map fun s => (s.occasion, s.accepted))) =
      some (2, [(.textChanged, false), (.flush, true)]) ∧
    (((AnyImporter.advancedMemory fun _ => some { length := 4 }).copyToDatabase { addressBits := 32 } false
        (.ofAccepts fun _ => false) extendedRead).map fun r =>
          (r.1.length, r.2.sent.map fun s => (s.occasion, s.accepted))) =
      some (2, [(.flush, false)]) := by
  refine ⟨?_, ?_, ?_⟩ <;> decide +kernel

end FailStar.ImportTrace
