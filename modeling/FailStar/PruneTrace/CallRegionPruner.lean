import FailStar.Foundations.Join
import FailStar.PruneTrace.BasicBlockPruner
import FailStar.PruneTrace.SamplingPruner
import FailStar.Util.Database

/-! # Pruning several variants by regions

`BasicBlockPruner::prune_all` prunes one variant after the other, for the trace file it was given.
`CallRegionPruner` inherits it, and overrides how the object dump of a variant is read and where a region ends:
behind a call or a return. The pruner is one object for all variants; `prune_all` clears the members of the base
class between them, but not the set of calls and returns.

* **`Pruner`** — the object and its tables; **`prune`**, **`pruneAll`** — one variant and all of them.
* **`crawl`** — the transitions the first pass looks at; **`Pruner.leadersOf_spec`** — the leaders it finds.
* **`Pruner.callOrRet_pruneAll`** — what a run leaves behind.
* **`variants_pruned_independently_iff`** — when a variant gets the regions it gets alone. -/

namespace FailStar.PruneTrace.RegionPruner

open ImportTrace Std BasicBlockPruner

/-! ## The pruner -/

/-- `method_name()`. -/
inductive Method
  | basicBlock
  | callRegion
  deriving DecidableEq, Repr

/-- A row of the query for the `objdump` table. -/
structure ObjdumpRow where
  instrAddress : ℕ
  /-- `char_length(opcode) DIV 2`. -/
  width : ℕ
  disassemble : String
  deriving DecidableEq, Repr

/-- A variant, with its rows in the tables `objdump` and `trace`. -/
structure Variant where
  id : ℕ
  objdump : List ObjdumpRow
  trace : List TraceRow := []
  deriving DecidableEq, Repr

/-- A row of `fspregion`. -/
structure FspRegion where
  id : ℕ
  tag : ℕ
  instr1 : ℕ
  instr2 : ℕ
  time1 : ℕ
  time2 : ℕ
  weightInner : ℕ
  weightOuter : ℕ
  countInner : ℕ
  countOuter : ℕ
  deriving DecidableEq, Repr

/-- The pruner and the tables it writes. The list `regions` is not used. -/
structure Pruner where
  method : Method
  instructions : TreeMap ℕ ℕ := ∅
  leaders : Finset ℕ := ∅
  /-- `call_or_ret`, of `CallRegionPruner`. -/
  callOrRet : Finset ℕ := ∅
  /-- The table `fspregion_helper`, if it exists. -/
  helper : Option (List Region) := none
  /-- The rows of `fspregion` for this method, with their variant. -/
  fspregion : List (ℕ × FspRegion) := []

/-- What the pruner does not determine while it prunes a variant. -/
structure Outside where
  /-- The first event of `findRegionLeaders` is not initialised if the trace has no instructions. -/
  uninitialised : ℕ := 0
  /-- The answers of the database to the INSERT statements of `findRegions`. -/
  inserts : ℕ → List Region → Bool := fun _ _ => true
  /-- Whether it accepts the statements of `exportRegions`. -/
  exports : Bool := true
  deriving Inhabited

/-- The instructions `CallRegionPruner` records as calls and returns. -/
def isCallOrRet (disas : String) : Bool :=
  "call".toList.isPrefixOf disas.toList || "ret".toList.isPrefixOf disas.toList ||
    "repz ret".toList.isPrefixOf disas.toList

namespace Pruner

/-- One row of the object dump. -/
def importRow (p : Pruner) (row : ObjdumpRow) : Pruner :=
  let p := { p with instructions := p.instructions.insert row.instrAddress (row.width % 2 ^ 8) }
  match p.method with
  | .basicBlock => p
  -- record calls and returns
  | .callRegion =>
    if isCallOrRet row.disassemble then { p with callOrRet := insert row.instrAddress p.callOrRet } else p

/-- **`importObjdump`**, of both pruners. It fails if no object dump is found. -/
def importObjdump (p : Pruner) (objdump : List ObjdumpRow) : Option Pruner :=
  let p := objdump.foldl importRow p
  if p.instructions.size = 0 then none else some p

/-- **`inSameRegion(previous, next)`**, of both pruners. `at` throws an exception for an unknown instruction; the
second pruner asks the first one behind a call or a return, to report an error. -/
def inSameRegion (p : Pruner) (previous next : ℕ) : Option Bool :=
  match p.method with
  | .basicBlock => p.instructions[previous]?.map fun width => (previous + width) % 2 ^ 64 = next
  | .callRegion => if previous ∈ p.callOrRet then p.instructions[previous]?.map fun _ => false else some true

/-- The loop of `findRegionLeaders`. -/
def leadersFrom (p : Pruner) : Event → List Event → Finset ℕ → Option (Finset ℕ)
  | _, [], leaders => some leaders
  | previous, next :: events, leaders =>
    p.instructions[previous.staticInstr]?.bind fun width =>
      let fallThrough := (previous.staticInstr + width) % 2 ^ 64
      -- instruction within previous instruction
      if previous.staticInstr < next.staticInstr ∧ next.staticInstr < fallThrough then
        match events with
        | [] => some leaders
        | next :: events => p.leadersFrom next events leaders
      else
        (p.inSameRegion previous.staticInstr next.staticInstr).bind fun same =>
          if same then p.leadersFrom next events leaders
          else p.leadersFrom next events (insert fallThrough (insert next.staticInstr leaders))

/-- **`findRegionLeaders()`.** -/
def findRegionLeaders (o : Outside) (p : Pruner) : List Event → Option Pruner
  | [] => some { p with leaders := insert o.uninitialised p.leaders }
  | next :: events =>
    (p.leadersFrom next events (insert next.staticInstr p.leaders)).map fun leaders => { p with leaders }

/-- The regions of the second pass. -/
def regions (p : Pruner) (events : List Event) : List Region := BasicBlockPruner.findRegions p.leaders 0 events

/-- **`findRegions(variant)`**: the regions go into a new table. The answer to the last INSERT is not looked
at. -/
def findRegions (o : Outside) (p : Pruner) (events : List Event) : Option Pruner :=
  match p.helper with
  | some _ => none
  | none =>
    let db := Database.replay o.inserts (fun _ => ()) (p.regions events)
    if db.sent.all Statement.accepted then
      let sent := (db.flush o.inserts .flush).1.sent
      some { p with helper := some ((sent.filter Statement.accepted).flatMap Statement.values) }
    else none

end Pruner

/-- The reads of a table. -/
def readRows (trace : List TraceRow) : List TraceRow := trace.filter fun t => t.accesstype = .read

/-- `t.time1 between RR.time1 and RR.time2`: the class starts in the region. -/
def startsIn (region : Region) (t : TraceRow) : Bool :=
  region.first.dynamicTime ≤ t.time1 ∧ t.time1 ≤ region.last.dynamicTime

/-- `fspregion_helper JOIN trace`. -/
def joined (helper : List Region) (trace : List TraceRow) : List (Region × TraceRow) :=
  joinOn helper (readRows trace) startsIn

/-- `GROUP BY RR.id`, with `IFNULL(_, 0)` for a region without reads. -/
def sumOf (helper : List Region) (trace : List TraceRow) (id : ℕ) (f : Region → TraceRow → ℕ) : ℕ :=
  (((joined helper trace).filter fun x => x.1.id = id).map fun x => f x.1 x.2).sum

/-- `t.time2 <= RR.time2`: the read is an inner one. -/
def inner (region : Region) (t : TraceRow) : Bool := t.time2 ≤ region.last.dynamicTime

/-- `t.time2 - t.time1 + 1`. -/
def weightRegular (t : TraceRow) : ℕ := t.time2 - t.time1 + 1

/-- A number in a column of type `int(11)`, which is signed. -/
def intColumn (n : ℕ) : ℕ := min n (2 ^ 31 - 1)

/-- The row of a region. -/
def exportRegion (helper : List Region) (trace : List TraceRow) (region : Region) : FspRegion where
  id := region.id
  tag := region.first.staticInstr
  instr1 := region.first.dynamicInstr
  instr2 := region.last.dynamicInstr
  time1 := region.first.dynamicTime
  time2 := region.last.dynamicTime
  weightInner := intColumn (sumOf helper trace region.id fun rr t => weightRegular t * (inner rr t).toNat)
  weightOuter := intColumn (sumOf helper trace region.id fun rr t => weightRegular t * (!inner rr t).toNat)
  countInner := intColumn (sumOf helper trace region.id fun rr t => (inner rr t).toNat)
  countOuter := intColumn (sumOf helper trace region.id fun rr t => (!inner rr t).toNat)

namespace Pruner

/-- **`exportRegions(variant)`**: the statement fails if a duration is out of range, or if a primary key is there
already. -/
def exportRegions (o : Outside) (p : Pruner) (v : Variant) : Option Pruner :=
  p.helper.bind fun helper =>
    let rows := helper.map fun region => (v.id, exportRegion helper v.trace region)
    if o.exports ∧ (∀ x ∈ joined helper v.trace, (duration x.2).isSome) ∧
        ((p.fspregion ++ rows).map fun row => (row.1, row.2.id)).Nodup then
      some { p with helper := none, fspregion := p.fspregion ++ rows }
    else none

/-- What `prune_all` clears before each variant. -/
def clear (p : Pruner) : Pruner := { p with instructions := ∅, leaders := ∅ }

/-- The leaders of a variant. -/
def leadersOf (o : Outside) (events : List Event) (p : Pruner) (v : Variant) : Option Pruner :=
  (p.clear.importObjdump v.objdump).bind fun p => p.findRegionLeaders o events

/-- **The loop body of `prune_all()`.** -/
def prune (events : List Event) (p : Pruner) (x : Outside × Variant) : Option Pruner :=
  (p.leadersOf x.1 events x.2).bind fun p => (p.findRegions x.1 events).bind fun p => p.exportRegions x.1 x.2

/-- **`prune_all()`**, if it returns `true`. -/
def pruneAll (events : List Event) (p : Pruner) (variants : List (Outside × Variant)) : Option Pruner :=
  variants.foldlM (prune events) p

end Pruner

/-! ## The first pass -/

/-- The transitions the first pass looks at, if it knows the instructions. -/
def crawl (instructions : TreeMap ℕ ℕ) : Event → List Event → Option (List (Event × Event))
  | _, [] => some []
  | previous, next :: events =>
    instructions[previous.staticInstr]?.bind fun _ =>
      if Within instructions previous next then
        match events with
        | [] => some []
        | next :: events => crawl instructions next events
      else (crawl instructions next events).map ((previous, next) :: ·)

/-- A region ends between two instructions. -/
def Pruner.breaks (p : Pruner) (x : Event × Event) : Bool :=
  match p.method with
  | .basicBlock => BasicBlockPruner.fallThrough p.instructions x.1.staticInstr ≠ x.2.staticInstr
  | .callRegion => x.1.staticInstr ∈ p.callOrRet

/-- The leaders of a transition. -/
def Pruner.mark (p : Pruner) (leaders : Finset ℕ) (x : Event × Event) : Finset ℕ :=
  if p.breaks x then
    insert (BasicBlockPruner.fallThrough p.instructions x.1.staticInstr) (insert x.2.staticInstr leaders)
  else leaders

variable {p q s : Pruner} {o : Outside} {events : List Event} {v : Variant} {leaders : Finset ℕ}

theorem fallThrough_of_known {instructions : TreeMap ℕ ℕ} {address width : ℕ}
    (h : instructions[address]? = some width) :
    BasicBlockPruner.fallThrough instructions address = (address + width) % 2 ^ 64 := by
  rw [BasicBlockPruner.fallThrough, h, Option.getD_some]

/-- Behind a known instruction, no exception is thrown. -/
theorem Pruner.inSameRegion_of_known {x : Event × Event} {width : ℕ}
    (h : p.instructions[x.1.staticInstr]? = some width) :
    p.inSameRegion x.1.staticInstr x.2.staticInstr = some (!p.breaks x) := by
  unfold inSameRegion breaks
  cases p.method with
  | basicBlock => simp [h, fallThrough_of_known h]
  | callRegion => by_cases hcall : x.1.staticInstr ∈ p.callOrRet <;> simp [h, hcall]

/-- **The first pass** marks the transitions it looks at. -/
theorem Pruner.leadersFrom_eq (p : Pruner) (previous : Event) (events : List Event) (leaders : Finset ℕ) :
    p.leadersFrom previous events leaders =
      (crawl p.instructions previous events).map fun ts => ts.foldl p.mark leaders := by
  fun_induction crawl p.instructions previous events generalizing leaders with
  | case1 => rfl
  | case2 previous next events ih₁ ih₂ =>
    unfold leadersFrom
    cases hwidth : p.instructions[previous.staticInstr]? with
    | none => rfl
    | some width =>
      have hsame := p.inSameRegion_of_known (x := (previous, next)) hwidth
      simp only [Option.bind_some, Within, fallThrough_of_known hwidth]
      by_cases hwithin : previous.staticInstr < next.staticInstr ∧
          next.staticInstr < (previous.staticInstr + width) % 2 ^ 64
      · -- an event within the previous instruction is skipped, and the one behind it becomes the previous one
        rw [if_pos hwithin, if_pos hwithin]
        cases events with
        | nil => rfl
        | cons next events => exact ih₁ leaders
      · rw [if_neg hwithin, if_neg hwithin, hsame, Option.bind_some, Option.map_map]
        cases hbreaks : p.breaks (previous, next) with
        | false => simp [ih₂, Function.comp_def, mark, hbreaks]
        | true => simp [ih₂, Function.comp_def, mark, hbreaks, fallThrough_of_known hwidth]

theorem Pruner.leadersFrom_basicBlock (hmethod : p.method = .basicBlock) (previous : Event) (events : List Event)
    (leaders : Finset ℕ) :
    p.leadersFrom previous events leaders =
      BasicBlockPruner.leadersFrom p.instructions previous events leaders := by
  fun_induction BasicBlockPruner.leadersFrom p.instructions previous events leaders with
  | case1 => rfl
  | case2 previous next events leaders ih₁ ih₂ ih₃ =>
    unfold leadersFrom
    refine Option.bind_congr fun width hwidth => ?_
    have hsame : p.inSameRegion previous.staticInstr next.staticInstr =
        some (decide ((previous.staticInstr + width) % 2 ^ 64 = next.staticInstr)) := by
      rw [inSameRegion, hmethod]
      dsimp only
      rw [hwidth, Option.map_some]
    dsimp only
    rw [hsame, Option.bind_some]
    split
    · cases events with
      | nil => rfl
      | cons next events => exact ih₁
    · by_cases hfall : (previous.staticInstr + width) % 2 ^ 64 = next.staticInstr
      · rw [if_pos (decide_eq_true hfall), if_neg (not_not.mpr hfall), ih₃]
      · rw [if_neg (by simpa using hfall), if_pos hfall, ih₂]

theorem Pruner.mem_foldl_mark (ts : List (Event × Event)) (a : ℕ) :
    a ∈ ts.foldl p.mark leaders ↔ a ∈ leaders ∨ ∃ x ∈ ts, p.breaks x = true ∧
      (a = x.2.staticInstr ∨ a = BasicBlockPruner.fallThrough p.instructions x.1.staticInstr) := by
  induction ts generalizing leaders with
  | nil => simp
  | cons x ts ih =>
    rw [List.foldl_cons, ih, mark]
    by_cases hbreaks : p.breaks x = true
    · rw [if_pos hbreaks]
      simp only [Finset.mem_insert, List.exists_mem_cons_iff, hbreaks, true_and]
      constructor
      · rintro ((h | h | h) | h)
        exacts [.inr (.inl (.inr h)), .inr (.inl (.inl h)), .inl h, .inr (.inr h)]
      · rintro (h | (h | h) | h)
        exacts [.inl (.inr (.inr h)), .inl (.inr (.inl h)), .inl (.inl h), .inr h]
    · rw [if_neg hbreaks]
      simp only [List.exists_mem_cons_iff, hbreaks, Bool.false_eq_true, false_and, false_or]

/-! ## The object dump of a variant -/

/-- The widths of the instructions of a variant. -/
def Variant.instructions (v : Variant) : TreeMap ℕ ℕ :=
  v.objdump.foldl (fun instructions row => instructions.insert row.instrAddress (row.width % 2 ^ 8)) ∅

/-- The object dump of a variant has a call or a return at an address. -/
def Variant.records (v : Variant) (address : ℕ) : Bool :=
  v.objdump.any fun row => row.instrAddress = address && isCallOrRet row.disassemble

/-- What an object dump changes. -/
structure Pruner.Imported (p q : Pruner) (objdump : List ObjdumpRow) : Prop where
  method : q.method = p.method
  instructions : q.instructions = objdump.foldl
    (fun instructions row => instructions.insert row.instrAddress (row.width % 2 ^ 8)) p.instructions
  leaders : q.leaders = p.leaders
  callOrRet : ∀ a, a ∈ q.callOrRet ↔ a ∈ p.callOrRet ∨ p.method = .callRegion ∧
    (objdump.any fun row => row.instrAddress = a && isCallOrRet row.disassemble) = true
  helper : q.helper = p.helper
  fspregion : q.fspregion = p.fspregion

theorem Pruner.imported_importRow (p : Pruner) (row : ObjdumpRow) : p.Imported (p.importRow row) [row] := by
  unfold importRow
  cases hmethod : p.method with
  | basicBlock => constructor <;> simp [hmethod]
  | callRegion =>
    by_cases hcall : isCallOrRet row.disassemble = true
    · constructor <;> simp [hmethod, hcall, or_comm, eq_comm]
    · constructor <;> simp [hmethod, hcall]

/-- **What `importObjdump` does.** -/
theorem Pruner.imported_foldl (p : Pruner) (objdump : List ObjdumpRow) :
    p.Imported (objdump.foldl importRow p) objdump := by
  induction objdump generalizing p with
  | nil => constructor <;> simp
  | cons row objdump ih =>
    have hrow := p.imported_importRow row
    have hrest := ih (p.importRow row)
    constructor
    · exact hrest.method.trans hrow.method
    · exact hrest.instructions.trans (by rw [hrow.instructions]; rfl)
    · exact hrest.leaders.trans hrow.leaders
    · intro a
      rw [List.foldl_cons, hrest.callOrRet, hrow.callOrRet, hrow.method, List.any_cons, List.any_cons,
        List.any_nil, Bool.or_false, Bool.or_eq_true, or_assoc, ← and_or_left]
    · exact hrest.helper.trans hrow.helper
    · exact hrest.fspregion.trans hrow.fspregion

/-- **The transitions of a variant**, if its object dump is found and knows the instructions. -/
def Variant.transitions (v : Variant) (events : List Event) : Option (List (Event × Event)) :=
  if v.instructions.size = 0 then none
  else
    match events with
    | [] => some []
    | next :: events => crawl v.instructions next events

/-- Behind an address, a region of a variant ends. The calls and returns are those that were recorded. -/
def Variant.Breaks (v : Variant) (method : Method) (calls : ℕ → Prop) (x : Event × Event) : Prop :=
  match method with
  | .basicBlock => BasicBlockPruner.fallThrough v.instructions x.1.staticInstr ≠ x.2.staticInstr
  | .callRegion => calls x.1.staticInstr

/-- **An address begins a region**: it is the first one, or one of the two behind the end of a region. -/
def Variant.Begins (v : Variant) (method : Method) (calls : ℕ → Prop) (first : ℕ) (ts : List (Event × Event))
    (a : ℕ) : Prop :=
  a = first ∨ ∃ x ∈ ts, v.Breaks method calls x ∧
    (a = x.2.staticInstr ∨ a = BasicBlockPruner.fallThrough v.instructions x.1.staticInstr)

/-- The address of the first event. -/
def firstAddress (o : Outside) (events : List Event) : ℕ :=
  (events.head?.map Event.staticInstr).getD o.uninitialised

/-- **The leaders the first pass finds.** -/
structure Pruner.Finds (o : Outside) (events : List Event) (p q : Pruner) (v : Variant)
    (ts : List (Event × Event)) :
    Prop where
  method : q.method = p.method
  leaders : ∀ a, a ∈ q.leaders ↔
    v.Begins p.method (fun c => c ∈ p.callOrRet ∨ v.records c = true) (firstAddress o events) ts a
  callOrRet : ∀ a, a ∈ q.callOrRet ↔ a ∈ p.callOrRet ∨ p.method = .callRegion ∧ v.records a = true
  helper : q.helper = p.helper
  fspregion : q.fspregion = p.fspregion

theorem Pruner.Imported.breaks_iff (h : p.Imported q v.objdump) (hempty : p.instructions = ∅)
    (x : Event × Event) :
    q.breaks x = true ↔ v.Breaks p.method (fun c => c ∈ p.callOrRet ∨ v.records c = true) x := by
  have hinstructions : q.instructions = v.instructions := by
    rw [h.instructions, hempty]
    rfl
  unfold breaks Variant.Breaks
  rw [h.method, hinstructions]
  cases hmethod : p.method with
  | basicBlock => exact decide_eq_true_iff
  | callRegion => simp [h.callOrRet, hmethod, Variant.records]

/-- **The first pass for a variant**: it succeeds if there are transitions, whatever was pruned before. -/
theorem Pruner.leadersOf_spec (o : Outside) (events : List Event) (p : Pruner) (v : Variant) :
    match v.transitions events with
    | none => p.leadersOf o events v = none
    | some ts => ∃ q, p.leadersOf o events v = some q ∧ p.Finds o events q v ts := by
  -- the widths are those of this variant only, but the calls and returns of the variants before are still there
  have himported : p.clear.Imported _ v.objdump := p.clear.imported_foldl v.objdump
  have hbreaks := fun x => himported.breaks_iff rfl x
  unfold leadersOf importObjdump
  generalize v.objdump.foldl importRow p.clear = p₁ at *
  have hinstructions : p₁.instructions = v.instructions := himported.instructions
  by_cases hsize : p₁.instructions.size = 0
  · simp [Variant.transitions, ← hinstructions, hsize]
  · have hfinds : ∀ (ts : List (Event × Event)) {leaders : Finset ℕ}, leaders = {firstAddress o events} →
        p.Finds o events { p₁ with leaders := ts.foldl p₁.mark leaders } v ts := by
      rintro ts _ rfl
      refine ⟨himported.method, fun a => ?_, himported.callOrRet, himported.helper, himported.fspregion⟩
      rw [mem_foldl_mark, Finset.mem_singleton, hinstructions]
      simp only [hbreaks]
      rfl
    have hleaders : p₁.leaders = ∅ := himported.leaders
    unfold Variant.transitions
    simp only [← hinstructions, if_neg hsize, Option.bind_some]
    cases events with
    | nil => exact ⟨_, rfl, hfinds [] (by rw [hleaders]; rfl)⟩
    | cons next events =>
      rw [findRegionLeaders, leadersFrom_eq]
      dsimp only
      split
      next h =>
        rw [h]
        rfl
      next ts h =>
        rw [h]
        exact ⟨_, rfl, hfinds ts (by rw [hleaders]; rfl)⟩

/-- **The basic-block pruner** finds the leaders of basic blocks, whatever was pruned before. -/
theorem Pruner.leadersOf_basicBlock (hmethod : p.method = .basicBlock) :
    (p.leadersOf o events v).map Pruner.leaders =
      (BasicBlockPruner.importObjdump (v.objdump.map fun row => (row.instrAddress, row.width))).bind
        fun instructions =>
        BasicBlockPruner.findRegionLeaders instructions o.uninitialised events := by
  have himported : p.clear.Imported _ v.objdump := p.clear.imported_foldl v.objdump
  unfold leadersOf importObjdump BasicBlockPruner.importObjdump
  generalize v.objdump.foldl importRow p.clear = p₁ at *
  have hbasic : p₁.method = .basicBlock := himported.method.trans hmethod
  have hleaders : p₁.leaders = ∅ := himported.leaders
  have hinstructions : v.objdump.foldl
      (fun instructions row => instructions.insert row.instrAddress (row.width % 2 ^ 8)) ∅ = p₁.instructions :=
    himported.instructions.symm
  dsimp only
  rw [List.foldl_map, hinstructions]
  split
  · rfl
  · rw [Option.bind_some, Option.bind_some]
    cases events with
    | nil => rw [findRegionLeaders, hleaders]; rfl
    | cons next events =>
      rw [findRegionLeaders, leadersFrom_basicBlock hbasic, hleaders, Option.map_map]
      exact Option.map_id'

/-! ## A run -/

/-- **The second pass** fills the table with the regions the database accepts. -/
theorem Pruner.findRegions_eq (h : p.findRegions o events = some q) :
    q = { p with helper := some (((Database.statements o.inserts (fun _ => ()) (p.regions events)).filter
      Statement.accepted).flatMap Statement.values) } := by
  unfold findRegions at h
  split at h
  · exact absurd h (Option.some_ne_none q).symm
  · dsimp only at h
    split at h
    · exact (Option.some.inj h).symm
    · exact absurd h (Option.some_ne_none q).symm

/-- **The export** adds the rows of the regions, and removes the table. -/
theorem Pruner.exportRegions_eq (h : p.exportRegions o v = some q) :
    ∃ helper, p.helper = some helper ∧
      ((p.fspregion ++ helper.map fun region => (v.id, exportRegion helper v.trace region)).map
        fun row => (row.1, row.2.id)).Nodup ∧
      q = { p with
        helper := none
        fspregion := p.fspregion ++ helper.map fun region => (v.id, exportRegion helper v.trace region) } := by
  obtain ⟨helper, hhelper, hif⟩ := Option.bind_eq_some_iff.mp h
  dsimp only at hif
  split at hif
  next hok => exact ⟨helper, hhelper, hok.2.2, (Option.some.inj hif).symm⟩
  next => exact absurd hif (Option.some_ne_none q).symm

theorem Pruner.finds_of_leadersOf (h : p.leadersOf o events v = some q) :
    ∃ ts, v.transitions events = some ts ∧ p.Finds o events q v ts := by
  have hspec := p.leadersOf_spec o events v
  split at hspec
  next => exact absurd (h.symm.trans hspec) (Option.some_ne_none q)
  next ts hts =>
    obtain ⟨q', hq', hfinds⟩ := hspec
    obtain rfl := Option.some.inj (h.symm.trans hq')
    exact ⟨ts, hts, hfinds⟩

/-- **A variant that is pruned**: the leaders, the regions the database has accepted, and their rows. -/
theorem Pruner.prune_eq_some (h : p.prune events (o, v) = some q) :
    ∃ ts q₁ helper, v.transitions events = some ts ∧ p.Finds o events q₁ v ts ∧
      helper = ((Database.statements o.inserts (fun _ => ()) (q₁.regions events)).filter
        Statement.accepted).flatMap Statement.values ∧
      ((q₁.fspregion ++ helper.map fun region => (v.id, exportRegion helper v.trace region)).map
        fun row => (row.1, row.2.id)).Nodup ∧
      q = { q₁ with
        helper := none
        fspregion := q₁.fspregion ++ helper.map fun region => (v.id, exportRegion helper v.trace region) } := by
  obtain ⟨q₁, hleaders, hrest⟩ := Option.bind_eq_some_iff.mp h
  obtain ⟨q₂, hregions, hexport⟩ := Option.bind_eq_some_iff.mp hrest
  obtain rfl := findRegions_eq hregions
  obtain ⟨helper, hhelper, hkeys, rfl⟩ := exportRegions_eq hexport
  obtain ⟨ts, hts, hfinds⟩ := finds_of_leadersOf hleaders
  exact ⟨ts, q₁, helper, hts, hfinds, (Option.some.inj hhelper).symm, hkeys, rfl⟩

/-- **One variant**: what is left for the next one. -/
theorem Pruner.prune_spec {x : Outside × Variant} (h : p.prune events x = some q) :
    q.method = p.method ∧ q.helper = none ∧
      ∀ a, a ∈ q.callOrRet ↔ a ∈ p.callOrRet ∨ p.method = .callRegion ∧ x.2.records a = true := by
  obtain ⟨ts, q₁, helper, -, hfinds, -, -, rfl⟩ := prune_eq_some h
  exact ⟨hfinds.method, rfl, hfinds.callOrRet⟩

/-- **What a run leaves behind**: the calls and returns of all variants. -/
theorem Pruner.callOrRet_pruneAll {front : List (Outside × Variant)} (h : p.pruneAll events front = some s) :
    s.method = p.method ∧ ∀ a, a ∈ s.callOrRet ↔
      a ∈ p.callOrRet ∨ p.method = .callRegion ∧ ∃ x ∈ front, x.2.records a = true := by
  induction front generalizing p with
  | nil =>
    obtain rfl : p = s := Option.some.inj h
    simp
  | cons x front ih =>
    rw [pruneAll, List.foldlM_cons] at h
    obtain ⟨p₁, hx, hfront⟩ := Option.bind_eq_some_iff.mp h
    obtain ⟨hmethod, -, hcalls⟩ := prune_spec hx
    obtain ⟨hmethod', hcalls'⟩ := ih hfront
    refine ⟨hmethod'.trans hmethod, fun a => ?_⟩
    rw [hcalls', hcalls, hmethod, List.exists_mem_cons_iff, and_or_left, or_assoc]

/-! ## Variants -/

/-- **A variant gets the leaders and regions it gets alone**, and fails if it fails alone. -/
def IndependentOf (events : List Event) (s : Pruner) (v : Variant) : Prop :=
  ∀ o o', (s.leadersOf o events v).map (fun q => (q.leaders, q.regions events)) =
    (Pruner.leadersOf o' events { method := s.method } v).map fun q => (q.leaders, q.regions events)

/-- More calls and returns add the two addresses behind each of them. -/
theorem Variant.begins_or_iff {old own : ℕ → Prop} {first : ℕ} {ts : List (Event × Event)} :
    (∀ a, v.Begins .callRegion (fun c => old c ∨ own c) first ts a ↔ v.Begins .callRegion own first ts a) ↔
      ∀ x ∈ ts, old x.1.staticInstr → v.Begins .callRegion own first ts x.2.staticInstr ∧
        v.Begins .callRegion own first ts (BasicBlockPruner.fallThrough v.instructions x.1.staticInstr) := by
  constructor
  · intro h x hx hold
    exact ⟨(h _).mp (.inr ⟨x, hx, .inl hold, .inl rfl⟩), (h _).mp (.inr ⟨x, hx, .inl hold, .inr rfl⟩)⟩
  · intro h a
    constructor
    · rintro (hfirst | ⟨x, hx, hold | hown, ha⟩)
      · exact .inl hfirst
      · obtain ⟨hnext, hfall⟩ := h x hx hold
        rcases ha with rfl | rfl
        · exact hnext
        · exact hfall
      · exact .inr ⟨x, hx, hown, ha⟩
    · rintro (hfirst | ⟨x, hx, hown, ha⟩)
      · exact .inl hfirst
      · exact .inr ⟨x, hx, .inr hown, ha⟩

/-- With the transitions of a variant, only the leaders matter. -/
theorem independentOf_iff {ts : List (Event × Event)} (hts : v.transitions events = some ts) :
    IndependentOf events s v ↔ ∀ o o' a,
      v.Begins s.method (fun c => c ∈ s.callOrRet ∨ v.records c = true) (firstAddress o events) ts a ↔
        v.Begins s.method (fun c => v.records c = true) (firstAddress o' events) ts a := by
  refine forall_congr' fun o => forall_congr' fun o' => ?_
  have hspec := s.leadersOf_spec o events v
  have halone := Pruner.leadersOf_spec o' events { method := s.method } v
  rw [hts] at hspec halone
  obtain ⟨q, hq, hfinds⟩ := hspec
  obtain ⟨q', hq', hfinds'⟩ := halone
  rw [hq, hq', Option.map_some, Option.map_some, Option.some_inj, Prod.mk.injEq]
  have hregions : q.leaders = q'.leaders → q.regions events = q'.regions events := fun h => by
    rw [Pruner.regions, Pruner.regions, h]
  rw [and_iff_left_of_imp hregions, Finset.ext_iff]
  refine forall_congr' fun a => ?_
  rw [hfinds.leaders, hfinds'.leaders]
  simp

/-- **Variants are pruned independently** if the trace has an instruction, and if the calls and returns of the
variants before make no difference: both addresses behind one of them begin a region of the variant anyway. -/
theorem variants_pruned_independently_iff (method : Method) (trace : List TraceEvent)
    (front : List (Outside × Variant)) (s : Pruner)
    (hrun : Pruner.pruneAll (traceStream 0 0 trace) { method } front = some s) (v : Variant) :
    IndependentOf (traceStream 0 0 trace) s v ↔
      ∀ ts, v.transitions (traceStream 0 0 trace) = some ts →
        ∃ first rest, traceStream 0 0 trace = first :: rest ∧
          (method = .callRegion → ∀ x ∈ ts, (∃ w ∈ front, w.2.records x.1.staticInstr = true) →
            v.Begins .callRegion (fun c => v.records c = true) first.staticInstr ts x.2.staticInstr ∧
            v.Begins .callRegion (fun c => v.records c = true) first.staticInstr ts
              (BasicBlockPruner.fallThrough v.instructions x.1.staticInstr)) := by
  obtain ⟨hmethod, hcalls⟩ := Pruner.callOrRet_pruneAll hrun
  generalize traceStream 0 0 trace = events at *
  simp only [Finset.notMem_empty, false_or] at hmethod hcalls
  cases hts : v.transitions events with
  | none =>
    refine iff_of_true (fun o o' => ?_) (by simp)
    have hspec := s.leadersOf_spec o events v
    have halone := Pruner.leadersOf_spec o' events { method := s.method } v
    rw [hts] at hspec halone
    rw [hspec, halone]
  | some ts =>
    rw [independentOf_iff hts, hmethod]
    simp only [Option.some.injEq, forall_eq', hcalls]
    cases events with
    | nil =>
      -- the first leader is not initialised
      have hnil : ts = [] := by
        unfold Variant.transitions at hts
        split at hts
        · exact absurd hts (Option.some_ne_none ts).symm
        · exact (Option.some.inj hts).symm
      subst hnil
      refine iff_of_false (fun h => ?_) (by simp)
      have hzero := (h { uninitialised := 0 } { uninitialised := 1 } 0).mp (.inl rfl)
      simp [Variant.Begins, firstAddress] at hzero
    | cons first rest =>
      have hfirst : ∀ o, firstAddress o (first :: rest) = first.staticInstr := fun _ => rfl
      simp only [hfirst, List.cons.injEq, and_assoc, exists_and_left, exists_eq_left', forall_const]
      cases method with
      | basicBlock => simp [Variant.Begins, Variant.Breaks]
      | callRegion =>
        simp only [true_and, forall_const]
        exact Variant.begins_or_iff

/-- Two variants of a program; only the first one has a call at the second instruction. -/
def callVariant : Variant where
  id := 1
  objdump := [⟨0x10, 2, "mov"⟩, ⟨0x12, 2, "call"⟩, ⟨0x14, 2, "ret"⟩]

@[inherit_doc callVariant]
def movVariant : Variant where
  id := 2
  objdump := [⟨0x10, 2, "mov"⟩, ⟨0x12, 2, "mov"⟩, ⟨0x14, 2, "ret"⟩]

/-- Three instructions, one behind the other. -/
def straightTrace : List TraceEvent := [{ ip := 0x10 }, { ip := 0x12 }, { ip := 0x14 }]

/-- Both pruners: a variant with the same calls changes nothing. -/
theorem variants_pruned_independently_twice :
    (∃ s, Pruner.pruneAll (traceStream 0 0 straightTrace) { method := .basicBlock }
      [({}, callVariant)] = some s ∧
      IndependentOf (traceStream 0 0 straightTrace) s movVariant) ∧
    ∃ s, Pruner.pruneAll (traceStream 0 0 straightTrace) { method := .callRegion } [({}, movVariant)] = some s ∧
      IndependentOf (traceStream 0 0 straightTrace) s callVariant := by
  constructor
  · have hsome : (Pruner.pruneAll (traceStream 0 0 straightTrace) { method := .basicBlock }
        [({}, callVariant)]).isSome := by decide +kernel
    obtain ⟨s, hs⟩ := Option.isSome_iff_exists.mp hsome
    refine ⟨s, hs,
      (variants_pruned_independently_iff _ _ _ s hs movVariant).mpr fun ts _ => ⟨_, _, rfl, by simp⟩⟩
  · have hsome : (Pruner.pruneAll (traceStream 0 0 straightTrace) { method := .callRegion }
        [({}, movVariant)]).isSome := by decide +kernel
    obtain ⟨s, hs⟩ := Option.isSome_iff_exists.mp hsome
    refine ⟨s, hs, (variants_pruned_independently_iff _ _ _ s hs callVariant).mpr fun ts hts => ⟨_, _, rfl, ?_⟩⟩
    -- the return is the last instruction
    have hcrawl : callVariant.transitions (traceStream 0 0 straightTrace) =
        some [(⟨0x10, 0, 0⟩, ⟨0x12, 1, 0⟩), (⟨0x12, 1, 0⟩, ⟨0x14, 2, 0⟩)] := by decide +kernel
    obtain rfl := Option.some.inj (hcrawl.symm.trans hts)
    have hnone : ∀ a ∈ [0x10, 0x12], movVariant.records a = false := by decide +kernel
    simp [hnone]

/-- A call of an earlier variant splits a region of a variant that has no call there. -/
theorem stale_call_splits_region :
    ∃ s, Pruner.pruneAll (traceStream 0 0 straightTrace) { method := .callRegion } [({}, callVariant)] = some s ∧
      ¬IndependentOf (traceStream 0 0 straightTrace) s movVariant := by
  have hafter :
    ((Pruner.pruneAll (traceStream 0 0 straightTrace) { method := .callRegion } [({}, callVariant)]).bind
      fun s => (s.leadersOf {} (traceStream 0 0 straightTrace) movVariant).map Pruner.leaders) =
        some {0x10, 0x14} := by
    decide +kernel
  have halone : (Pruner.leadersOf {} (traceStream 0 0 straightTrace) { method := .callRegion } movVariant).map
      Pruner.leaders = some {0x10} := by
    decide +kernel
  obtain ⟨s, hs, hleaders⟩ := Option.bind_eq_some_iff.mp hafter
  refine ⟨s, hs, fun h => ?_⟩
  have heq := congrArg (Option.map Prod.fst) (h {} {})
  rw [(Pruner.callOrRet_pruneAll hs).1, Option.map_map, Option.map_map] at heq
  exact absurd (hleaders.symm.trans (heq.trans halone)) (by decide)

end FailStar.PruneTrace.RegionPruner
