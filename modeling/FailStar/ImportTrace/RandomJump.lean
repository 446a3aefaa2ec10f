import FailStar.ImportTrace.Importer

/-! # The random jump importer

`RandomJumpImporter` imports a fault space of jumps: every instruction that is executed, with every address it
could jump to instead. The addresses take the place of data addresses. There are no open equivalence classes.

* **`RandomJumpImporter.handleIpEvent`** — the jumps of an instruction.
* **`RandomJumpImporter.copyToDatabase`** — the import of a whole trace. -/

namespace FailStar.ImportTrace

/-- `RandomJumpImporter`, with its memory maps and the addresses of the disassembled instructions. -/
structure RandomJumpImporter where
  /-- `m_mm_from`, from `--jump-from`. -/
  mmFrom : Option MemoryMap := none
  /-- `m_mm_to`, from `--jump-to`. -/
  mmTo : Option MemoryMap
  /-- The addresses of `instr_map`; `none` without an ELF binary. -/
  instrAddresses : Option (List ℕ)

namespace RandomJumpImporter

/-- `m_jump_to_addresses`. The importer fails without a `--jump-to` map and without an ELF binary. -/
def jumpToAddresses (imp : RandomJumpImporter) : Option (List ℕ) :=
  imp.mmTo.bind fun mmTo => imp.instrAddresses.map fun addresses => addresses.filter mmTo.isMatching

/-- One iteration of the loop over all addresses. There is no jump to the same instruction. -/
def addJump (cfg : Config) (curtime instr : ℕ) (ev : TraceEvent) (st : Importer) (toAddr : ℕ) :
    Option Importer :=
  if toAddr = ev.ip then some st
  else
    let margin : Margin := { dyninstr := instr, ip := cfg.address ev.ip, time := curtime }
    st.addTraceEvent cfg margin margin
      { ev with accesstype := some .read, memaddr := some toAddr, width := some 4 } false

/-- `RandomJumpImporter::handle_ip_event`; memory events are ignored. -/
def handleIpEvent (imp : RandomJumpImporter) (cfg : Config) (st : Importer) (curtime instr : ℕ)
    (ev : TraceEvent) :
    Option Importer :=
  imp.jumpToAddresses.bind fun addresses =>
    -- skip events that are outside of the memory maps
    if cfg.isMatching (cfg.address ev.ip) && imp.mmFrom.all fun mm => mm.isMatching (cfg.address ev.ip) then
      addresses.foldlM (addJump cfg curtime instr ev) st
    else some st

/-- One iteration of the loop in `copy_to_database`. -/
def importEvent (imp : RandomJumpImporter) (cfg : Config) (p : Progress) (ev : TraceEvent) : Option Progress :=
  (advanceTime p ev).bind fun p =>
    if ev.hasMemaddr then some { p with ip := ev.ip }
    else if p.instr = 2 ^ 32 - 1 then none
    else
      (imp.handleIpEvent cfg p.st p.curtime p.instr ev).map fun st =>
        { p with instrMemaccess := p.instr, instr := p.instr + 1, ip := ev.ip, st }

/-- **`copy_to_database`** of a `RandomJumpImporter`, whose `open_unused_ec_intervals` is empty. -/
def copyToDatabase (imp : RandomJumpImporter) (cfg : Config) (events : List TraceEvent) : Option Importer :=
  (events.foldlM (imp.importEvent cfg) {}).bind fun p => closeEcIntervals cfg (endTrace cfg p)

end RandomJumpImporter

end FailStar.ImportTrace
