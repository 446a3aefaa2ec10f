import FailStar.Foundations.Table
import FailStar.ImportTrace.SanityChecks

/-! # The tables of the pruners

A pruner selects the experiments of a campaign, the pilots, and assigns every row of the `trace` table to a pilot
whose outcome stands for it.

* **`Pilot`** — a row of `fsppilot`; **`Group`** — a row of `fspgroup`.
* **`PruneDb`** — the three tables, with their primary keys. -/

namespace FailStar.PruneTrace

open ImportTrace

/-- A row of the `trace` table, with its `variant_id`. -/
abbrev TraceEntry := ℕ × TraceRow

/-- `PRIMARY KEY (variant_id, data_address, instr2)`. -/
def traceKey (t : TraceEntry) : ℕ × ℕ × ℕ := (t.1, t.2.dataAddress, t.2.instr2)

/-- A row of `fsppilot`, without its `id`. -/
structure Pilot where
  knownOutcome : ℕ
  variantId : ℕ
  instr2 : ℕ
  injectionInstr : ℕ
  injectionInstrAbsolute : Option ℕ
  dataAddress : ℕ
  dataWidth : ℕ
  fspmethodId : ℕ
  deriving DecidableEq, Repr

/-- The columns of a pilot that identify a trace row. -/
def Pilot.traceKey (p : Pilot) : ℕ × ℕ × ℕ := (p.variantId, p.dataAddress, p.instr2)

/-- A row of `fspgroup`. -/
structure Group where
  variantId : ℕ
  instr2 : ℕ
  dataAddress : ℕ
  fspmethodId : ℕ
  pilotId : ℕ
  weight : Option ℕ := none
  deriving DecidableEq, Repr

/-- `PRIMARY KEY (variant_id, data_address, instr2, fspmethod_id)`: the trace row, and the method. -/
def Group.key (g : Group) : (ℕ × ℕ × ℕ) × ℕ := ((g.variantId, g.dataAddress, g.instr2), g.fspmethodId)

/-- **The tables of the pruners.** -/
structure PruneDb where
  trace : Table traceKey
  fsppilot : AutoTable Pilot
  fspgroup : Table Group.key

/-- The groups refer to pilots whose `id` has been assigned. -/
def PruneDb.Assigned (db : PruneDb) : Prop := ∀ g ∈ db.fspgroup.rows, g.pilotId < db.fsppilot.next

end FailStar.PruneTrace
