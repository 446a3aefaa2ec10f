import FailStar.Trace.Event
import FailStar.Util.MemoryMap

/-! # The trace importer

`import-trace` reads a trace file and writes the equivalence classes of the fault space into the `trace`
table: for every data address, intervals of dynamic instructions that end with an access to the address.

* **`Importer`** — the base class: the open equivalence classes, and the rows handed to the database.
* **`addBytes`** — the loop over all accessed bytes, which the concrete importers share.
* **`MemoryImporter`**, **`InstructionImporter`**, **`RegisterImporter`** — what the concrete importers do
  with an instruction event and with a memory event.
* **`copyToDatabase`** — the import of a whole trace. `none` stands for `false` and for a failed assertion.

Log output, the sanity checks behind the import and the report of untranslated registers are left out. -/

namespace FailStar

open Std

namespace ImportTrace

/-- `margin_info_t`. -/
structure Margin where
  dyninstr : ℕ := 0
  ip : ℕ := 0
  time : ℕ := 0
  deriving DecidableEq, Repr

/-- A row of the `trace` table. -/
structure TraceRow where
  instr1 : ℕ
  instr1Absolute : Option ℕ
  instr2 : ℕ
  instr2Absolute : Option ℕ
  time1 : ℕ
  time2 : ℕ
  dataAddress : ℕ
  width : ℕ
  accesstype : AccessType
  /-- The columns for extended trace information: `data_value`, and the value of each traced register and of
  the memory it points to. `none` if the row is inserted without these columns. -/
  extended : Option (ℕ × List (Option ℕ × Option ℕ)) := none
  /-- The columns of `database_insert_data`. -/
  additional : List (Option ℕ) := []
  /-- The argument `is_fake` of the call that inserts the row; not a column. -/
  isFake : Bool
  deriving DecidableEq, Repr

/-- The options of an import. -/
structure Config where
  /-- The width of `address_t`. -/
  addressBits : ℕ
  /-- `m_mm`. -/
  mm : Option MemoryMap := none
  /-- `m_faultspace_rightmargin`. -/
  faultspaceRightmargin : AccessType := .write
  /-- `m_import_write_ecs`. -/
  importWriteEcs : Bool := true
  /-- `m_extended_trace`. -/
  extendedTrace : Bool := false
  /-- The identifiers of `m_extended_trace_regs`. -/
  extendedTraceRegs : List ℕ := []
  /-- `database_insert_data(ev, value_sql, num_columns, is_fake)`: no columns in the base class. -/
  databaseInsertData : TraceEvent → Bool → List (Option ℕ) := fun _ _ => []
  /-- The answer of `Database::insert_multiple` to a row, behind the rows it was given before. -/
  insertMultiple : List TraceRow → TraceRow → Bool := fun _ _ => true

/-- The conversion to `address_t`. -/
def Config.address (cfg : Config) (n : ℕ) : ℕ := n % 2 ^ cfg.addressBits

/-- `!m_mm || m_mm->isMatching(addr)`. -/
def Config.isMatching (cfg : Config) (addr : ℕ) : Bool := cfg.mm.all fun mm => mm.isMatching addr

/-- The columns for extended trace information, if they are configured and available. The last entry of a
register counts. -/
def Config.extendedColumns (cfg : Config) (event : TraceEvent) : Option (ℕ × List (Option ℕ × Option ℕ)) :=
  if cfg.extendedTrace then
    event.traceExt.map fun ext =>
      (ext.data.getD 0 % 2 ^ 32, cfg.extendedTraceRegs.map fun id =>
        let register := ext.registers.reverse.find? fun register => register.id = id
        (register.bind fun r => r.value.map (· % 2 ^ 32), register.bind fun r => r.valueDeref))
  else none

/-- The state of an `Importer`. -/
structure Importer where
  /-- `m_time_trace_start`. -/
  timeTraceStart : ℕ := 0
  /-- `m_open_ecs`. -/
  openEcs : TreeMap ℕ Margin := ∅
  /-- `m_last_ip`. -/
  lastIp : ℕ := 0
  /-- `m_last_instr`. -/
  lastInstr : ℕ := 0
  /-- `m_last_time`. -/
  lastTime : ℕ := 0
  /-- The rows inserted so far. -/
  rows : List TraceRow := []

/-! ## Open equivalence classes and rows -/

namespace Importer

/-- `getOpenEC(data_address)`. Reading the map creates a missing entry. -/
def getOpenEC (st : Importer) (dataAddress : ℕ) : Margin × Importer :=
  let ec := st.openEcs[dataAddress]?.getD {}
  ({ ec with time := if ec.time = 0 then st.timeTraceStart else ec.time },
    { st with openEcs := st.openEcs.insertIfNew dataAddress {} })

/-- `newOpenEC(data_address, time, dyninstr, ip)`. -/
def newOpenEC (st : Importer) (dataAddress time dyninstr ip : ℕ) : Importer :=
  { st with openEcs := st.openEcs.insert dataAddress { dyninstr, ip, time } }

/-- An instruction address of a row: `NULL` for a fake event and for the address zero. -/
def absolute (ip : ℕ) (isFake : Bool) : Option ℕ := if ip = 0 ∨ isFake then none else some ip

/-- The row `add_trace_event` makes of an event. -/
def traceRow (cfg : Config) (left right : Margin) (event : TraceEvent) (isFake : Bool) : TraceRow where
  instr1 := left.dyninstr
  instr1Absolute := absolute left.ip isFake
  instr2 := right.dyninstr
  instr2Absolute := absolute right.ip isFake
  time1 := left.time
  time2 := right.time
  dataAddress := event.getMemaddr % 2 ^ 32
  width := 1
  accesstype := event.getAccesstype
  extended := cfg.extendedColumns event
  additional := cfg.databaseInsertData event isFake
  isFake

/-- `add_trace_event(begin, end, event, is_fake)`. -/
def addTraceEvent (cfg : Config) (st : Importer) (left right : Margin) (event : TraceEvent)
    (isFake : Bool) : Option Importer :=
  if cfg.importWriteEcs = false ∧ event.getAccesstype = .write then some st
  else
    let row := traceRow cfg left right event isFake
    if cfg.insertMultiple st.rows row then some { st with rows := st.rows ++ [row] } else none

/-- One iteration of the loop over all accessed bytes. The event carries the access type; `matching` is the
check against a possibly supplied memory map, `width` the width that is set in the event. -/
def addByte (cfg : Config) (matching : ℕ → Bool) (curtime instr : ℕ) (ev : TraceEvent) (width : ℕ)
    (st : Importer) (dataAddress : ℕ) : Option Importer :=
  if matching dataAddress then
    let (left, st) := st.getOpenEC dataAddress
    let right : Margin := { dyninstr := instr, ip := cfg.address ev.ip, time := curtime }
    -- skip zero-sized intervals
    if right.dyninstr < left.dyninstr then some st
    else
      (st.addTraceEvent cfg left right { ev with memaddr := some dataAddress, width := some width } false).map
        -- next interval must start at next instruction
        fun st => st.newOpenEC dataAddress ((curtime + 1) % 2 ^ 64) ((instr + 1) % 2 ^ 32) (cfg.address ev.ip)
  else some st

/-- **The loop over all accessed bytes**, from `lo` up to and without `hi`. -/
def addBytes (cfg : Config) (matching : ℕ → Bool) (curtime instr : ℕ) (ev : TraceEvent) (width lo hi : ℕ)
    (st : Importer) : Option Importer :=
  (List.range' lo (hi - lo)).foldlM (addByte cfg matching curtime instr ev width) st

end Importer

/-! ## The concrete importers -/

/-- `MemoryImporter::handle_mem_event`; instruction events are ignored. -/
def MemoryImporter.handleMemEvent (cfg : Config) (st : Importer) (curtime instr : ℕ) (ev : TraceEvent) :
    Option Importer :=
  st.addBytes cfg cfg.isMatching curtime instr ev 1 (cfg.address ev.getMemaddr)
    (cfg.address (ev.getMemaddr + ev.getWidth))

/-- What the importers read of a disassembled instruction. -/
structure Instr where
  length : ℕ
  regUses : List ℕ := []
  regDefs : List ℕ := []
  opcode : ℕ := 0
  address : ℕ := 0
  conditionalBranch : Bool := false

/-- The map of disassembled instructions, over 32-bit addresses. -/
abbrev InstrMap := ℕ → Option Instr

/-- `instr_map.find(ev.ip())`. -/
def InstrMap.find (instrMap : InstrMap) (ev : TraceEvent) : Option Instr := instrMap (ev.ip % 2 ^ 32)

/-- `InstructionImporter::handle_ip_event`; memory events are ignored. Instructions that were not
disassembled are skipped. -/
def InstructionImporter.handleIpEvent (instrMap : InstrMap) (cfg : Config) (st : Importer)
    (curtime instr : ℕ) (ev : TraceEvent) : Option Importer :=
  match instrMap.find ev with
  | none => some st
  | some opcode =>
    -- instruction fetch is always a read
    st.addBytes cfg cfg.isMatching curtime instr { ev with accesstype := some .read } 1 (cfg.address ev.ip)
      (cfg.address (ev.ip + opcode.length))

/-- `reginfo_t`: a part of a register, with width and offset in bits. -/
structure RegInfo where
  id : ℕ
  width : ℕ := 32
  offset : ℕ := 0
  deriving DecidableEq, Repr

/-- `toDataAddress()`. -/
def RegInfo.toDataAddress (info : RegInfo) : ℕ := (info.id <<< 4) ||| (info.offset / 8)

/-- `RegisterImporter`, with its options, the registers of the architecture, the disassembled instructions
and the translation of the disassembler's registers (`none` is `notfound`). -/
structure RegisterImporter where
  doGp : Bool := true
  doFlags : Bool := false
  doIp : Bool := false
  doSplitRegisters : Bool := true
  gpRegisters : List ℕ
  flagRegisters : List ℕ
  ipRegister : ℕ
  instrMap : InstrMap
  getFailRegisterInfo : ℕ → Option RegInfo

namespace RegisterImporter

/-- `m_register_ids`. -/
def registerIds (imp : RegisterImporter) : List ℕ :=
  (if imp.doGp then imp.gpRegisters else []) ++ (if imp.doFlags then imp.flagRegisters else [])

/-- `addRegisterTrace(curtime, instr, ev, info, access_type)`. Here the memory map is a map of instruction
addresses. -/
def addRegisterTrace (imp : RegisterImporter) (cfg : Config) (curtime instr : ℕ) (ev : TraceEvent)
    (accessType : AccessType) (st : Importer) (info : RegInfo) : Option Importer :=
  let ev := { ev with accesstype := some accessType }
  let matching := fun _ => cfg.isMatching (cfg.address ev.ip)
  let lo := cfg.address info.toDataAddress
  if imp.doSplitRegisters then
    st.addBytes cfg matching curtime instr ev 1 lo (cfg.address (info.toDataAddress + info.width / 8))
  else st.addBytes cfg matching curtime instr ev (info.width / 8) lo (cfg.address (lo + 1))

/-- The loops over `reg_uses` and `reg_defs`: registers without a translation and registers we do not want
to inject into are skipped. -/
def addRegister (imp : RegisterImporter) (cfg : Config) (curtime instr : ℕ) (ev : TraceEvent)
    (accessType : AccessType) (st : Importer) (reg : ℕ) : Option Importer :=
  match imp.getFailRegisterInfo reg with
  | none => some st
  | some info =>
    if info.id ∈ imp.registerIds then imp.addRegisterTrace cfg curtime instr ev accessType st info else some st

/-- `info_pc`. -/
def infoPc (imp : RegisterImporter) : RegInfo := { id := imp.ipRegister }

/-- The instruction pointer is read + written at each instruction. -/
def addInstructionPointer (imp : RegisterImporter) (cfg : Config) (curtime instr : ℕ) (ev : TraceEvent)
    (st : Importer) : Option Importer :=
  if imp.doIp then
    (imp.addRegisterTrace cfg curtime instr ev .read st imp.infoPc).bind fun st =>
      imp.addRegisterTrace cfg curtime instr ev .write st imp.infoPc
  else some st

/-- `RegisterImporter::handle_ip_event`; memory events are ignored. -/
def handleIpEvent (imp : RegisterImporter) (cfg : Config) (st : Importer) (curtime instr : ℕ)
    (ev : TraceEvent) : Option Importer :=
  (imp.addInstructionPointer cfg curtime instr ev st).bind fun st =>
    match imp.instrMap.find ev with
    | none => some st
    | some opcode =>
      (opcode.regUses.foldlM (imp.addRegister cfg curtime instr ev .read) st).bind fun st =>
        opcode.regDefs.foldlM (imp.addRegister cfg curtime instr ev .write) st

end RegisterImporter

/-- The concrete importers. -/
inductive Kind
  | memory
  | instruction (instrMap : InstrMap)
  | register (imp : RegisterImporter)

namespace Kind

/-- `handle_ip_event`. -/
def handleIpEvent : Kind → Config → Importer → ℕ → ℕ → TraceEvent → Option Importer
  | memory, _, st, _, _, _ => some st
  | instruction instrMap, cfg, st, curtime, instr, ev =>
    InstructionImporter.handleIpEvent instrMap cfg st curtime instr ev
  | register imp, cfg, st, curtime, instr, ev => imp.handleIpEvent cfg st curtime instr ev

/-- `handle_mem_event`. -/
def handleMemEvent : Kind → Config → Importer → ℕ → ℕ → TraceEvent → Option Importer
  | memory, cfg, st, curtime, instr, ev => MemoryImporter.handleMemEvent cfg st curtime instr ev
  | _, _, st, _, _, _ => some st

/-- The addresses of the memory map that get an open EC: none in the `RegisterImporter`, where the map has
a different meaning. -/
def unusedAddresses : Kind → Config → List ℕ
  | register _, _ => []
  | _, cfg => (cfg.mm.map MemoryMap.elements).getD []

end Kind

/-! ## The import -/

/-- The variables of the loop in `copy_to_database`. -/
structure Progress where
  curtime : ℕ := 0
  instr : ℕ := 0
  /-- `instr_memaccess`: the instruction new memory access events belong to. -/
  instrMemaccess : ℕ := 0
  /-- `ev.ip()` of the last event. -/
  ip : ℕ := 0
  st : Importer := {}

/-- The time of an event. Negative deltas fail an assertion. -/
def advanceTime (p : Progress) (ev : TraceEvent) : Option Progress :=
  match ev.timeDelta with
  | none => some p
  | some delta =>
    if 0 ≤ delta then
      let start := if p.st.timeTraceStart = 0 then delta.toNat else p.st.timeTraceStart
      some { p with curtime := (p.curtime + delta.toNat) % 2 ^ 64, st := { p.st with timeTraceStart := start } }
    else none

theorem advanceTime_keeps {p p' : Progress} {ev : TraceEvent} (h : advanceTime p ev = some p') :
    p'.st.rows = p.st.rows ∧ p'.st.openEcs = p.st.openEcs ∧ p'.instr = p.instr ∧
      p'.instrMemaccess = p.instrMemaccess := by
  rw [advanceTime] at h
  split at h
  · obtain rfl := Option.some.inj h
    exact ⟨rfl, rfl, rfl, rfl⟩
  · split at h
    · obtain rfl := Option.some.inj h
      exact ⟨rfl, rfl, rfl, rfl⟩
    · cases h

/-- One iteration of the loop in `copy_to_database`. -/
def importEvent (cfg : Config) (kind : Kind) (p : Progress) (ev : TraceEvent) : Option Progress :=
  (advanceTime p ev).bind fun p =>
    if ev.hasMemaddr then
      (kind.handleMemEvent cfg p.st p.curtime p.instrMemaccess ev).map fun st => { p with ip := ev.ip, st }
    else if p.instr = 2 ^ 32 - 1 then none
    else
      (kind.handleIpEvent cfg p.st p.curtime p.instr ev).map fun st =>
        { p with instrMemaccess := p.instr, instr := p.instr + 1, ip := ev.ip, st }

/-- `open_unused_ec_intervals()`. -/
def openUnusedEcIntervals (cfg : Config) (kind : Kind) (st : Importer) : Importer :=
  (kind.unusedAddresses cfg).foldl
    (fun st a => if a ∈ st.openEcs then st else st.newOpenEC a st.timeTraceStart 0 0) st

theorem openUnused_rows (as : List ℕ) (st : Importer) :
    (as.foldl (fun st a => if a ∈ st.openEcs then st else st.newOpenEC a st.timeTraceStart 0 0) st).rows =
      st.rows := by
  induction as generalizing st with
  | nil => rfl
  | cons a as ih =>
    rw [List.foldl_cons, ih]
    split <;> rfl

/-- One iteration of `close_ec_intervals()`. -/
def closeEcInterval (cfg : Config) (st : Importer) (lastuse : ℕ × Margin) : Option Importer :=
  let right : Margin := { dyninstr := st.lastInstr, ip := st.lastIp, time := st.lastTime }
  -- zero-sized? skip
  if right.dyninstr < lastuse.2.dyninstr then some st
  else
    st.addTraceEvent cfg lastuse.2 right
      { ip := right.ip, memaddr := some lastuse.1, width := some 1,
        accesstype := some cfg.faultspaceRightmargin } true

/-- `close_ec_intervals()`. -/
def closeEcIntervals (cfg : Config) (st : Importer) : Option Importer :=
  st.openEcs.toList.foldlM (closeEcInterval cfg) st

/-- The members `copy_to_database` sets behind the last event. -/
def endTrace (cfg : Config) (p : Progress) : Importer :=
  { p.st with lastTime := p.curtime, lastInstr := (p.instr + (2 ^ 32 - 1)) % 2 ^ 32,
              lastIp := cfg.address p.ip }

/-- **`copy_to_database`**, for the events of a trace file. -/
def copyToDatabase (cfg : Config) (kind : Kind) (events : List TraceEvent) : Option Importer :=
  (events.foldlM (importEvent cfg kind) {}).bind fun p =>
    closeEcIntervals cfg (openUnusedEcIntervals cfg kind (endTrace cfg p))

end ImportTrace

end FailStar
