import FailStar.Foundations.Blocks
import FailStar.ImportTrace.RecordedTimes

/-! # The basic-block pruner

`BasicBlockPruner` cuts a trace into regions, the executions of basic blocks. A first pass over the trace finds
the leaders of basic blocks, where control flow does not fall through; a second pass begins a region at every
leader.

* **`traceStream`** — the instruction events of a trace; **`findRegionLeaders`**, **`findRegions`** — the two
  passes.
* **`marked_leadersFrom`** — what the first pass establishes.
* **`regions_are_basic_blocks`** — the regions cover the trace, and are determined by their leader. -/

namespace FailStar.PruneTrace.BasicBlockPruner

open ImportTrace Std

/-! ## The two passes -/

/-- `trace_event_t`. -/
structure Event where
  staticInstr : ℕ
  dynamicInstr : ℕ
  dynamicTime : ℕ
  deriving DecidableEq, Repr

/-- **`trace_stream`**: the instruction events of a trace, behind `instr` instructions at the time `curtime`. -/
def traceStream : ℕ → ℕ → List TraceEvent → List Event
  | _, _, [] => []
  | instr, curtime, ev :: events =>
    let curtime := addDelta curtime ev
    if ev.hasMemaddr then traceStream instr curtime events
    else
      { staticInstr := ev.ip, dynamicInstr := instr, dynamicTime := curtime } ::
        traceStream ((instr + 1) % 2 ^ 32) curtime events

/-- `importObjdump`: the widths of all instructions, from the rows of the `objdump` table. It fails if there are
none. -/
def importObjdump (objdump : List (ℕ × ℕ)) : Option (TreeMap ℕ ℕ) :=
  let instructions := objdump.foldl (fun instructions row => instructions.insert row.1 (row.2 % 2 ^ 8)) ∅
  if instructions.size = 0 then none else some instructions

/-- The loop of `findRegionLeaders`. `at` throws an exception for an instruction that is not known. -/
def leadersFrom (instructions : TreeMap ℕ ℕ) : Event → List Event → Finset ℕ → Option (Finset ℕ)
  | _, [], leaders => some leaders
  | previous, next :: events, leaders =>
    instructions[previous.staticInstr]?.bind fun width =>
      let fallThrough := (previous.staticInstr + width) % 2 ^ 64
      -- instruction within previous instruction
      if previous.staticInstr < next.staticInstr ∧ next.staticInstr < fallThrough then
        match events with
        | [] => some leaders
        | next :: events => leadersFrom instructions next events leaders
      else if fallThrough ≠ next.staticInstr then
        leadersFrom instructions next events (insert fallThrough (insert next.staticInstr leaders))
      else leadersFrom instructions next events leaders

/-- **`findRegionLeaders()`**: the addresses of region leaders. The first event is not initialised if the trace
has no instructions. -/
def findRegionLeaders (instructions : TreeMap ℕ ℕ) (uninitialised : ℕ) : List Event → Option (Finset ℕ)
  | [] => some {uninitialised}
  | next :: events => leadersFrom instructions next events {next.staticInstr}

/-- `region`. -/
structure Region where
  id : ℕ
  /-- `begin`: the first event is included. -/
  first : Event
  /-- `end`: the last event is included. -/
  last : Event
  instructionCount : ℕ
  deriving DecidableEq, Repr

/-- `appendInstruction(obj)`. -/
def Region.appendInstruction (region : Region) (obj : Event) : Region :=
  { region with last := obj, instructionCount := (region.instructionCount + 1) % 2 ^ 32 }

/-- The loop that adds all instructions of a region, up to the next leader. -/
def extendRegion (leaders : Finset ℕ) : Region → List Event → Region × List Event
  | region, [] => (region, [])
  | region, event :: events =>
    if event.staticInstr ∈ leaders then (region, event :: events)
    else extendRegion leaders (region.appendInstruction event) events

theorem length_extendRegion_le (leaders : Finset ℕ) (region : Region) (events : List Event) :
    (extendRegion leaders region events).2.length ≤ events.length := by
  induction events generalizing region with
  | nil => exact Nat.le_refl _
  | cons event events ih =>
    rw [extendRegion]
    split
    · exact Nat.le_refl _
    · exact (ih _).trans (Nat.le_succ _)

/-- **`findRegions`**: the rows of `fspregion_helper`, behind `id` regions. -/
def findRegions (leaders : Finset ℕ) (id : ℕ) : List Event → List Region
  | [] => []
  | event :: events =>
    let region : Region := { id, first := event, last := event, instructionCount := 0 }
    let extended := extendRegion leaders (region.appendInstruction event) events
    extended.1 :: findRegions leaders ((id + 1) % 2 ^ 32) extended.2
termination_by events => events.length
decreasing_by exact Nat.lt_succ_of_le (length_extendRegion_le _ _ _)

/-! ## The first pass -/

/-- The address of the instruction behind an instruction. -/
def fallThrough (instructions : TreeMap ℕ ℕ) (address : ℕ) : ℕ :=
  (address + instructions[address]?.getD 0) % 2 ^ 64

/-- An instruction lies within the previous one. -/
def Within (instructions : TreeMap ℕ ℕ) (previous next : Event) : Prop :=
  previous.staticInstr < next.staticInstr ∧ next.staticInstr < fallThrough instructions previous.staticInstr

instance (instructions : TreeMap ℕ ℕ) (previous next : Event) : Decidable (Within instructions previous next) :=
  inferInstanceAs (Decidable (_ ∧ _))

variable {instructions : TreeMap ℕ ℕ} {leaders : Finset ℕ} {events : List Event}

/-- Whether an address is a leader. -/
def isLeader (leaders : Finset ℕ) (address : ℕ) : Bool := address ∈ leaders

theorem marked_mono {leaders leaders' : Finset ℕ} (hsub : leaders ⊆ leaders') {x y : ℕ}
    (h : isLeader leaders x = true ∧ isLeader leaders y = true) :
    isLeader leaders' x = true ∧ isLeader leaders' y = true := by
  simp only [isLeader, decide_eq_true_eq] at h ⊢
  exact ⟨hsub h.1, hsub h.2⟩

/-- **The first pass** marks both places wherever the trace does not fall through. -/
theorem marked_leadersFrom (leaders : Finset ℕ) {previous : Event}
    (hknown : ∀ e ∈ previous :: events, instructions[e.staticInstr]?.isSome)
    (hwithin : (previous :: events).IsChain fun e e' => ¬Within instructions e e') :
    ∃ leaders', leadersFrom instructions previous events leaders = some leaders' ∧ leaders ⊆ leaders' ∧
      Marked Event.staticInstr (fallThrough instructions) (isLeader leaders') (previous :: events) := by
  induction events generalizing previous leaders with
  | nil => exact ⟨leaders, rfl, Finset.Subset.refl _, List.IsChain.singleton _⟩
  | cons next events ih =>
    obtain ⟨width, hwidth⟩ := Option.isSome_iff_exists.mp (hknown previous List.mem_cons_self)
    have hfall : fallThrough instructions previous.staticInstr = (previous.staticInstr + width) % 2 ^ 64 := by
      rw [fallThrough, hwidth, Option.getD_some]
    rw [List.isChain_cons_cons, Within, hfall] at hwithin
    have hknown' : ∀ e ∈ next :: events, instructions[e.staticInstr]?.isSome :=
      fun e he => hknown e (List.mem_cons_of_mem _ he)
    unfold leadersFrom
    rw [hwidth, Option.bind_some]
    dsimp only
    rw [if_neg hwithin.1]
    by_cases hsame : (previous.staticInstr + width) % 2 ^ 64 = next.staticInstr
    · rw [if_neg (not_not.mpr hsame)]
      obtain ⟨leaders', hrest, hsub, hmarked⟩ := ih leaders hknown' hwithin.2
      exact ⟨leaders', hrest, hsub, List.isChain_cons_cons.mpr ⟨Or.inl (hfall.trans hsame), hmarked⟩⟩
    · -- leaders are only added, so that those inserted here are still there at the end
      rw [if_pos hsame]
      obtain ⟨leaders', hrest, hsub, hmarked⟩ := ih _ hknown' hwithin.2
      refine ⟨leaders', hrest, ?_, List.isChain_cons_cons.mpr ⟨Or.inr (marked_mono hsub ?_), hmarked⟩⟩
      · exact ((Finset.subset_insert _ _).trans (Finset.subset_insert _ _)).trans hsub
      · rw [hfall]
        simp [isLeader]

/-! ## The second pass -/

/-- The region of a block. -/
structure IsRegion (region : Region) (block : List Event) : Prop where
  first : block.head? = some region.first
  last : block.getLast? = some region.last
  count : region.instructionCount = block.length % 2 ^ 32

theorem IsRegion.foldl {region : Region} {block : List Event} (h : IsRegion region block) (events : List Event) :
    IsRegion (events.foldl Region.appendInstruction region) (block ++ events) := by
  induction events generalizing region block with
  | nil => rwa [List.append_nil]
  | cons event events ih =>
    rw [List.foldl_cons, ← List.singleton_append, ← List.append_assoc]
    refine ih ⟨?_, ?_, ?_⟩
    · rw [List.head?_append, h.first]
      rfl
    · rw [List.getLast?_append]
      rfl
    · rw [List.length_append, Region.appendInstruction, h.count]
      simp

theorem extendRegion_eq (leaders : Finset ℕ) (region : Region) (events : List Event) :
    extendRegion leaders region events =
      ((events.takeWhile fun e => !isLeader leaders e.staticInstr).foldl Region.appendInstruction region,
        events.dropWhile fun e => !isLeader leaders e.staticInstr) := by
  induction events generalizing region with
  | nil => rfl
  | cons event events ih =>
    rw [extendRegion]
    by_cases hleader : event.staticInstr ∈ leaders
    · rw [if_pos hleader, List.takeWhile_cons_of_neg (by simpa [isLeader] using hleader),
        List.dropWhile_cons_of_neg (by simpa [isLeader] using hleader)]
      rfl
    · rw [if_neg hleader, ih, List.takeWhile_cons_of_pos (by simpa [isLeader] using hleader),
        List.dropWhile_cons_of_pos (by simpa [isLeader] using hleader)]
      rfl

/-- **The regions are the blocks of the trace.** -/
theorem forall₂_findRegions (leaders : Finset ℕ) (id : ℕ) (events : List Event) :
    List.Forall₂ IsRegion (findRegions leaders id events)
    (blocks Event.staticInstr (isLeader leaders) events) := by
  induction hn : events.length using Nat.strong_induction_on generalizing id events with
  | _ n ih =>
    cases events with
    | nil =>
      rw [findRegions]
      exact List.Forall₂.nil
    | cons event events =>
      rw [findRegions, blocks_cons, extendRegion_eq]
      have hone : IsRegion (Region.appendInstruction ⟨id, event, event, 0⟩ event) [event] := ⟨rfl, rfl, rfl⟩
      refine List.Forall₂.cons (hone.foldl _) ?_
      refine ih (events.dropWhile fun e => !isLeader leaders e.staticInstr).length ?_ _ _ rfl
      have hle := (List.dropWhile_suffix (fun e => !isLeader leaders e.staticInstr) (l := events)).length_le
      rw [List.length_cons] at hn
      omega

/-! ## The regions -/

theorem dynamicInstr_head (instr curtime : ℕ) (trace : List TraceEvent) :
    ∀ e ∈ (traceStream instr curtime trace).head?, e.dynamicInstr = instr := by
  induction trace generalizing curtime with
  | nil => simp [traceStream]
  | cons ev trace ih =>
    rw [traceStream]
    split
    · exact ih _
    · simp

/-- The instruction events of a trace are numbered. -/
theorem isChain_traceStream (instr curtime : ℕ) (trace : List TraceEvent) :
    (traceStream instr curtime trace).IsChain fun e e' => e'.dynamicInstr = (e.dynamicInstr + 1) % 2 ^ 32 := by
  induction trace generalizing instr curtime with
  | nil => exact List.IsChain.nil
  | cons ev trace ih =>
    rw [traceStream]
    split
    · exact ih _ _
    · exact List.isChain_cons.mpr ⟨dynamicInstr_head _ _ _, ih _ _⟩

/-- **The regions are executions of basic blocks**: with the events of each region.  -/
structure BasicBlocks (instructions : TreeMap ℕ ℕ) (events : List Event) (regions : List Region)
    (executed : List (List Event)) : Prop where
  region : List.Forall₂ IsRegion regions executed
  nonempty : [] ∉ executed
  /-- The regions cover all instructions of the trace. -/
  cover : executed.flatten = events
  first : regions.head?.map Region.first = events.head?
  last : regions.getLast?.map Region.last = events.getLast?
  contiguous : regions.IsChain fun r r' => r'.first.dynamicInstr = (r.last.dynamicInstr + 1) % 2 ^ 32
  /-- Within a region, control flow falls through. -/
  fallsThrough : ∀ es ∈ executed, es.IsChain fun e e' => fallThrough instructions e.staticInstr = e'.staticInstr
  /-- Two regions with the same leader execute the same instructions, but the last region may end earlier. -/
  same : ∀ i j es es', executed[i]? = some es → executed[j]? = some es' →
    es.head?.map Event.staticInstr = es'.head?.map Event.staticInstr →
      es.map Event.staticInstr = es'.map Event.staticInstr ∨
        (i + 1 = executed.length ∧ es.map Event.staticInstr <+: es'.map Event.staticInstr) ∨
        (j + 1 = executed.length ∧ es'.map Event.staticInstr <+: es.map Event.staticInstr)

theorem head?_of_forall₂ {regions : List Region} {executed : List (List Event)}
    (h : List.Forall₂ IsRegion regions executed) : regions.head?.map Region.first = executed.flatten.head? := by
  cases h with
  | nil => rfl
  | cons hregion _ =>
    rw [List.head?_cons, List.flatten_cons, List.head?_append, hregion.first]
    rfl

theorem getLast?_of_forall₂ {regions : List Region} {executed : List (List Event)}
    (h : List.Forall₂ IsRegion regions executed) :
    regions.getLast?.map Region.last = executed.flatten.getLast? := by
  induction h with
  | nil => rfl
  | @cons region es regions executed hregion hrest ih =>
    rw [List.flatten_cons, List.getLast?_append, ← ih, hregion.last]
    cases regions with
    | nil => rfl
    | cons region' regions =>
      rw [List.getLast?_cons_cons]
      rw [List.getLast?_eq_some_getLast (List.cons_ne_nil _ _)]
      rfl

/-- The numbers of the events carry over to the regions. -/
theorem contiguous_of_forall₂ {regions : List Region} {executed : List (List Event)}
    (h : List.Forall₂ IsRegion regions executed)
    (hchain : executed.IsChain fun es es' => ∀ e ∈ es.getLast?, ∀ e' ∈ es'.head?,
      e'.dynamicInstr = (e.dynamicInstr + 1) % 2 ^ 32) :
    regions.IsChain fun r r' => r'.first.dynamicInstr = (r.last.dynamicInstr + 1) % 2 ^ 32 := by
  induction h with
  | nil => exact List.IsChain.nil
  | @cons region es regions executed hregion hrest ih =>
    cases hrest with
    | nil => exact List.IsChain.singleton _
    | @cons region' es' regions executed hregion' hrest =>
      rw [List.isChain_cons_cons] at hchain ⊢
      exact ⟨hchain.1 _ hregion.last _ hregion'.first, ih hchain.2⟩

/-- **Basic-block regions are real basic blocks.** -/
theorem regions_are_basic_blocks (uninitialised : ℕ) (trace : List TraceEvent)
    (hknown : ∀ e ∈ traceStream 0 0 trace, instructions[e.staticInstr]?.isSome)
    (hwithin : (traceStream 0 0 trace).IsChain fun e e' => ¬Within instructions e e') :
    ∃ leaders executed, findRegionLeaders instructions uninitialised (traceStream 0 0 trace) = some leaders ∧
      BasicBlocks instructions (traceStream 0 0 trace)
      (findRegions leaders 0 (traceStream 0 0 trace)) executed := by
  have hnumbered := isChain_traceStream 0 0 trace
  generalize traceStream 0 0 trace = events at hknown hwithin hnumbered ⊢
  -- the first pass; only an empty trace depends on the uninitialised event
  obtain ⟨leaders, hleaders, hmarked⟩ : ∃ leaders, findRegionLeaders instructions uninitialised events =
    some leaders ∧
      Marked Event.staticInstr (fallThrough instructions) (isLeader leaders) events := by
    cases events with
    | nil => exact ⟨_, rfl, List.IsChain.nil⟩
    | cons next events =>
      obtain ⟨leaders, hrun, -, hmarked⟩ := marked_leadersFrom {next.staticInstr} hknown hwithin
      exact ⟨leaders, hrun, hmarked⟩
  -- the second pass makes one region of every block
  have hregion := forall₂_findRegions leaders 0 events
  have hnil := nil_notMem_blocks Event.staticInstr (isLeader leaders) events
  have hcover := flatten_blocks Event.staticInstr (isLeader leaders) events
  refine ⟨leaders, blocks Event.staticInstr (isLeader leaders) events, hleaders, hregion, hnil, hcover, ?_, ?_,
    ?_, ?_, ?_⟩
  · rw [head?_of_forall₂ hregion, hcover]
  · rw [getLast?_of_forall₂ hregion, hcover]
  · rw [← hcover] at hnumbered
    exact contiguous_of_forall₂ hregion ((List.isChain_flatten hnil).mp hnumbered).2
  · exact fun es hes => hmarked.fallsThrough hes
  · exact fun i j es es' hi hj hhead => hmarked.same_of_head hi hj hhead

/-- A loop of two instructions that is left in its second iteration, behind the first instruction. -/
theorem regions_are_basic_blocks_loop :
    let instructions : TreeMap ℕ ℕ := TreeMap.ofList [(0x10, 2), (0x12, 3), (0x20, 1)]
    let trace : List TraceEvent :=
      [{ ip := 0x10 }, { ip := 0x12 }, { ip := 0x10, timeDelta := some 4 }, { ip := 0x20 }]
    ∃ leaders executed, findRegionLeaders instructions 0 (traceStream 0 0 trace) = some leaders ∧
      BasicBlocks instructions (traceStream 0 0 trace)
        (findRegions leaders 0 (traceStream 0 0 trace)) executed :=
  regions_are_basic_blocks 0 _ (by decide +kernel) (by decide +kernel)

end FailStar.PruneTrace.BasicBlockPruner
