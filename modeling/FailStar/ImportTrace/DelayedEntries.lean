import FailStar.ImportTrace.MemoryRows

/-! # Delayed memory events

`AdvancedMemoryImporter` hands memory events to `MemoryImporter::handle_mem_event` later than they occur, but in
the same order.

* **`backlog`** — which memory events have been inserted behind some events, and which are still delayed.
* **`importEvents_advanced`** — the `AdvancedMemoryImporter` follows it.
* **`StillDelayed`** — the same for a single memory event, by counting branches. -/

namespace FailStar.ImportTrace

open AdvancedMemoryImporter

variable {cfg : Config} {instrMap : InstrMap} {events : List TraceEvent} {ev : TraceEvent} {st : Importer}

/-! ## The backlog -/

/-- The memory events behind which enough of the trace is known, and the other ones. -/
structure Backlog where
  inserted : List DelayedTraceEntry := []
  delayed : List DelayedTraceEntry := []

/-- An event behind the events `front`. Instructions release the front of the queue. -/
def Backlog.step (instrMap : InstrMap) (front : List TraceEvent) (b : Backlog) (ev : TraceEvent) : Backlog :=
  if ev.hasMemaddr then { b with delayed := b.delayed ++ [entryAt instrMap front ev] }
  else
    { inserted := b.inserted ++ b.delayed.takeWhile (enoughFuture (knownBranches instrMap (front ++ [ev])))
      delayed := b.delayed.dropWhile (enoughFuture (knownBranches instrMap (front ++ [ev]))) }

/-- The backlog behind the events `front ++ events`. -/
def backlogFrom (instrMap : InstrMap) : List TraceEvent → Backlog → List TraceEvent → Backlog
  | _, b, [] => b
  | front, b, ev :: events => backlogFrom instrMap (front ++ [ev]) (b.step instrMap front ev) events

/-- **The backlog behind some events.** -/
def backlog (instrMap : InstrMap) (events : List TraceEvent) : Backlog := backlogFrom instrMap [] {} events

theorem backlogFrom_concat (front : List TraceEvent) (b : Backlog) (events : List TraceEvent) (ev : TraceEvent) :
    backlogFrom instrMap front b (events ++ [ev]) =
      (backlogFrom instrMap front b events).step instrMap (front ++ events) ev := by
  induction events generalizing front b with
  | nil => rw [List.append_nil]; rfl
  | cons ev' events ih =>
    rw [List.cons_append, backlogFrom, ih, backlogFrom, List.append_assoc, List.singleton_append]

theorem backlog_concat (events : List TraceEvent) (ev : TraceEvent) :
    backlog instrMap (events ++ [ev]) = (backlog instrMap events).step instrMap events ev := by
  rw [backlog, backlogFrom_concat]
  rfl

theorem backlog_mem (hmem : ev.hasMemaddr = true) :
    backlog instrMap (events ++ [ev]) =
      { backlog instrMap events with
        delayed := (backlog instrMap events).delayed ++ [entryAt instrMap events ev] } := by
  rw [backlog_concat, Backlog.step, if_pos hmem]

theorem backlog_instr (hmem : ¬ ev.hasMemaddr = true) :
    backlog instrMap (events ++ [ev]) =
      { inserted := (backlog instrMap events).inserted ++
          (backlog instrMap events).delayed.takeWhile (enoughFuture (knownBranches instrMap (events ++ [ev])))
        delayed := (backlog instrMap events).delayed.dropWhile
          (enoughFuture (knownBranches instrMap (events ++ [ev]))) } := by
  rw [backlog_concat, Backlog.step, if_neg hmem]

/-- No memory event is lost, and they stay in order. -/
theorem backlog_entries (instrMap : InstrMap) (events : List TraceEvent) :
    (backlog instrMap events).inserted ++ (backlog instrMap events).delayed = entriesOf instrMap events := by
  induction events using List.reverseRecOn with
  | nil => rfl
  | append_singleton events ev ih =>
    rw [entriesOf_concat, ← ih]
    by_cases hmem : ev.hasMemaddr = true
    · rw [backlog_mem hmem, if_pos hmem, List.append_assoc]
    · rw [backlog_instr hmem, if_neg hmem, List.append_nil, List.append_assoc, List.takeWhile_append_dropWhile]

/-! ## Branch outcomes -/

/-- The instruction events. -/
def instructions (events : List TraceEvent) : List TraceEvent := events.filter fun ev => !ev.hasMemaddr

theorem countP_eq_dropLast {α : Type*} (p : α → Bool) (l : List α) :
    l.countP p = l.dropLast.countP p + if l.getLast?.any p then 1 else 0 := by
  induction l using List.reverseRecOn with
  | nil => rfl
  | append_singleton l a _ =>
    rw [List.countP_append, List.dropLast_concat, List.getLast?_concat, List.countP_singleton]
    rfl

theorem knownBranches_mem (hmem : ev.hasMemaddr = true) :
    knownBranches instrMap (events ++ [ev]) = knownBranches instrMap events := by
  rw [knownBranches, List.filter_append, List.filter_cons_of_neg (by simp [hmem]), List.filter_nil,
    List.append_nil]
  rfl

theorem knownBranches_instr (hmem : ¬ ev.hasMemaddr = true) :
    knownBranches instrMap (events ++ [ev]) =
      knownBranches instrMap events +
        if (instructions events).getLast?.any (isBranch instrMap) then 1 else 0 := by
  rw [knownBranches, List.filter_append, List.filter_cons_of_pos (by simp [hmem]), List.filter_nil,
    List.dropLast_concat]
  exact countP_eq_dropLast (isBranch instrMap) (instructions events)

theorem knownBranches_le (events : List TraceEvent) (ev : TraceEvent) :
    knownBranches instrMap events ≤ knownBranches instrMap (events ++ [ev]) := by
  by_cases hmem : ev.hasMemaddr = true
  · rw [knownBranches_mem hmem]
  · rw [knownBranches_instr hmem]
    exact Nat.le_add_right _ _

/-! ## The AdvancedMemoryImporter -/

/-- **`insert_delayed_entries` inserts the front of the queue.** -/
theorem records_insertDelayedEntries (hdb : cfg.Accepts) (branchesTaken : List Bool) (finalizing : Bool)
    (entries : List DelayedTraceEntry) (st : Importer) :
    Records cfg (touchesOf cfg (entries.takeWhile (released branchesTaken.length finalizing))) st
      (insertDelayedEntries cfg branchesTaken finalizing entries st).2 := by
  induction entries generalizing st with
  | nil => exact records_refl cfg st
  | cons entry entries ih =>
    rw [insertDelayedEntries]
    by_cases h : released branchesTaken.length finalizing entry = true
    · have hdb' : Config.Accepts { cfg with
          databaseInsertData :=
            databaseInsertData entry.opcode (branchmask branchesTaken entry.branchesBefore) } := hdb
      have hrec := (records_tryMemEvent hdb' entry st).2.of_data
      rw [if_pos h, List.takeWhile_cons_of_pos h]
      exact hrec.trans (ih _)
    · rw [if_neg h, List.takeWhile_cons_of_neg h]
      exact records_refl cfg st

theorem released_false (n : ℕ) : released n false = enoughFuture n := by
  funext entry
  exact Bool.or_false _

theorem takeWhile_released_true (n : ℕ) (entries : List DelayedTraceEntry) :
    entries.takeWhile (released n true) = entries :=
  List.takeWhile_eq_self_iff.mpr fun _ _ => Bool.or_true _

/-- The state of an `AdvancedMemoryImporter` behind some events. -/
structure Delays (cfg : Config) (instrMap : InstrMap) (events : List TraceEvent) (q : Delaying) : Prop where
  clock : Clock events q.toProgress
  disassembled : 0 < instructionCount events → q.history.disassembled = true
  lastBranch : q.history.lastWasConditionalBranch = (instructions events).getLast?.any (isBranch instrMap)
  branches : q.history.branchesTaken.length = knownBranches instrMap events
  delayed : q.history.delayedEntries = (backlog instrMap events).delayed
  follows : Follows cfg (fun events => (backlog instrMap events).inserted) events q.st

theorem delays_init : Delays cfg instrMap [] {} :=
  ⟨clock_init, fun h => absurd h (lt_irrefl 0), rfl, rfl, rfl, follows_init rfl⟩

variable {q : Delaying}

theorem Delays.memEvent (h : Delays cfg instrMap events q) (hmem : ev.hasMemaddr = true)
    (hcount : 0 < instructionCount events) (hfind : (instrMap.find ev).isSome = true) :
    AdvancedMemoryImporter.handleMemEvent instrMap q.history (traceTime (events ++ [ev]) % 2 ^ 64)
        q.instrMemaccess ev =
      some { q.history with delayedEntries := (backlog instrMap (events ++ [ev])).delayed } := by
  obtain ⟨opcode, hopcode⟩ := Option.isSome_iff_exists.mp hfind
  rw [AdvancedMemoryImporter.handleMemEvent, if_pos (h.disassembled hcount), hopcode, Option.map_some,
    backlog_mem hmem, h.delayed, h.clock.memaccess, h.branches, entryAt, hopcode]
  rfl

theorem instructions_instr (hmem : ¬ ev.hasMemaddr = true) :
    instructions (events ++ [ev]) = instructions events ++ [ev] := by
  rw [instructions, List.filter_append, List.filter_cons_of_pos (by simp [hmem])]
  rfl

theorem instructions_mem (hmem : ev.hasMemaddr = true) :
    instructions (events ++ [ev]) = instructions events := by
  rw [instructions, List.filter_append, List.filter_cons_of_neg (by simp [hmem]), List.filter_nil,
    List.append_nil]
  rfl

theorem Delays.learned (h : Delays cfg instrMap events q) (hmem : ¬ ev.hasMemaddr = true) :
    (learnBranch q.history ev).branchesTaken.length = knownBranches instrMap (events ++ [ev]) ∧
      (learnBranch q.history ev).lastWasConditionalBranch = false ∧
      (learnBranch q.history ev).delayedEntries = q.history.delayedEntries := by
  rw [AdvancedMemoryImporter.learnBranch, knownBranches_instr hmem, ← h.lastBranch, ← h.branches]
  cases hlast : q.history.lastWasConditionalBranch with
  | true => exact ⟨List.length_append, rfl, rfl⟩
  | false => exact ⟨rfl, hlast, rfl⟩

theorem noteBranch_last (cfg : Config) (instrMap : InstrMap) (h : BranchHistory) (ev : TraceEvent)
    (hlast : h.lastWasConditionalBranch = false) :
    (noteBranch cfg instrMap h ev).lastWasConditionalBranch = isBranch instrMap ev := by
  rw [noteBranch, isBranch]
  cases instrMap.find ev with
  | none => exact hlast
  | some opcode =>
    cases hbranch : opcode.conditionalBranch with
    | true => simp [hbranch]
    | false => simp [hbranch, hlast]

theorem Delays.ipEvent (h : Delays cfg instrMap events q) (hdb : cfg.Accepts) (hmem : ¬ ev.hasMemaddr = true)
    (st : Importer) :
    (handleIpEvent cfg instrMap q.history st ev).1.disassembled = true ∧
    (handleIpEvent cfg instrMap q.history st ev).1.lastWasConditionalBranch = isBranch instrMap ev ∧
    (handleIpEvent cfg instrMap q.history st ev).1.branchesTaken.length =
      knownBranches instrMap (events ++ [ev]) ∧
    (handleIpEvent cfg instrMap q.history st ev).1.delayedEntries = (backlog instrMap (events ++ [ev])).delayed ∧
    Records cfg
      (touchesOf cfg ((backlog instrMap events).delayed.takeWhile
        (enoughFuture (knownBranches instrMap (events ++ [ev]))))) st
      (handleIpEvent cfg instrMap q.history st ev).2 := by
  obtain ⟨hbranches, hlast, hdelayed⟩ := h.learned hmem
  have hqueue := insertDelayedEntries_fst cfg (learnBranch q.history ev).branchesTaken false
    (learnBranch q.history ev).delayedEntries st
  have hrec := records_insertDelayedEntries hdb (learnBranch q.history ev).branchesTaken false
    (learnBranch q.history ev).delayedEntries st
  rw [released_false, hbranches, hdelayed, h.delayed] at hqueue hrec
  rw [AdvancedMemoryImporter.handleIpEvent]
  dsimp only
  rw [hdelayed, h.delayed, backlog_instr hmem]
  generalize hafter : ({ learnBranch q.history ev with
      delayedEntries := (insertDelayedEntries cfg (learnBranch q.history ev).branchesTaken false
        (backlog instrMap events).delayed st).1
      disassembled := true } : BranchHistory) = after
  obtain ⟨hbranches', hdelayed', hdisas'⟩ := noteBranch_keeps cfg instrMap after ev
  have hlast' := noteBranch_last cfg instrMap after ev (hafter ▸ hlast)
  subst hafter
  exact ⟨hdisas', hlast', by rw [hbranches']; exact hbranches, hdelayed'.trans hqueue, hrec⟩

theorem Delays.importEvent (h : Delays cfg instrMap events q) (hdb : cfg.Accepts)
    (hread : Readable (events ++ [ev])) (hfirst : ev.hasMemaddr = true → 0 < instructionCount events)
    (hfind : (instrMap.find ev).isSome = true) :
    ∃ q', AdvancedMemoryImporter.importEvent cfg instrMap q ev = some q' ∧
      Delays cfg instrMap (events ++ [ev]) q' := by
  have hdelta := hread.1 ev (List.mem_append_right _ (List.mem_singleton_self ev))
  rw [AdvancedMemoryImporter.importEvent, h.clock.advanceTime hdelta, Option.bind_some]
  by_cases hmem : ev.hasMemaddr = true
  · rw [if_pos hmem]
    dsimp only
    rw [h.memEvent hmem (hfirst hmem) hfind, Option.map_some]
    refine ⟨_, rfl, ?_, fun _ => h.disassembled (hfirst hmem), ?_, ?_, rfl, ?_⟩
    · exact .of_mem hmem h.clock.instr h.clock.memaccess rfl rfl rfl
    · rw [instructions_mem hmem]
      exact h.lastBranch
    · rw [knownBranches_mem hmem]
      exact h.branches
    · refine h.follows.step [] ?_ (records_refl cfg _)
      rw [backlog_mem hmem, List.append_nil]
  · rw [if_neg hmem, if_neg (hread.instr_ne hmem h.clock)]
    obtain ⟨hdisas, hlast, hbranches, hdelayed, hrec⟩ :=
      h.ipEvent hdb hmem { q.st with timeTraceStart := traceStart (events ++ [ev]) }
    refine ⟨_, rfl, ?_, fun _ => hdisas, ?_, hbranches, hdelayed, ?_⟩
    · exact .of_instr hmem (congrArg (· + 1) h.clock.instr) h.clock.instr rfl hrec.start rfl
    · rw [instructions_instr hmem, List.getLast?_concat]
      exact hlast
    · refine h.follows.step _ ?_ hrec
      rw [backlog_instr hmem]

/-- The first event is an instruction. -/
def BeginsWithInstruction (events : List TraceEvent) : Prop := ∀ ev ∈ events.head?, ev.hasMemaddr = false

theorem BeginsWithInstruction.front (h : BeginsWithInstruction (events ++ [ev])) :
    BeginsWithInstruction events := by
  cases events with
  | nil => exact fun ev hev => absurd hev (by simp)
  | cons ev' events => exact h

theorem BeginsWithInstruction.count_pos (h : BeginsWithInstruction (events ++ [ev]))
    (hmem : ev.hasMemaddr = true) :
    0 < instructionCount events := by
  cases events with
  | nil => exact absurd (h ev rfl) (by simp [hmem])
  | cons ev' events => exact List.countP_pos_iff.mpr ⟨ev', List.mem_cons_self, by simpa using h ev' rfl⟩

/-- **The `AdvancedMemoryImporter` follows the backlog.** -/
theorem importEvents_advanced (hdb : cfg.Accepts) (hread : Readable events)
    (hfirst : BeginsWithInstruction events) (hfind : ∀ ev ∈ events, (instrMap.find ev).isSome = true) :
    ∃ q, events.foldlM (AdvancedMemoryImporter.importEvent cfg instrMap) {} = some q ∧
      Delays cfg instrMap events q := by
  induction events using List.reverseRecOn with
  | nil => exact ⟨_, rfl, delays_init⟩
  | append_singleton events ev ih =>
    obtain ⟨q, hq, h⟩ := ih hread.front hfirst.front fun ev' hev' => hfind ev' (List.mem_append_left _ hev')
    obtain ⟨q', hstep, h'⟩ := h.importEvent hdb hread hfirst.count_pos
      (hfind ev (List.mem_append_right _ (List.mem_singleton_self ev)))
    refine ⟨q', ?_, h'⟩
    rw [List.foldlM_append, hq]
    simpa using hstep

/-- A memory event at the beginning cannot be handled, as nothing is disassembled yet. -/
theorem beginsWithInstruction_of_advanced
    (h : events.foldlM (AdvancedMemoryImporter.importEvent cfg instrMap) {} = some q) :
    BeginsWithInstruction events := by
  cases events with
  | nil => exact fun ev hev => absurd hev (by simp)
  | cons ev events =>
    rw [List.foldlM_cons] at h
    obtain ⟨q₁, hstep, -⟩ := Option.bind_eq_some_iff.mp h
    obtain ⟨p, -, hstep⟩ := Option.bind_eq_some_iff.mp hstep
    intro ev' hev'
    obtain rfl : ev = ev' := Option.some.inj hev'
    by_contra hmem
    rw [if_pos (Bool.eq_true_of_not_eq_false hmem)] at hstep
    cases hstep

theorem readable_of_advanced (hdb : cfg.Accepts) (hfind : ∀ ev ∈ events, (instrMap.find ev).isSome = true)
    (h : events.foldlM (AdvancedMemoryImporter.importEvent cfg instrMap) {} = some q) : Readable events := by
  induction events using List.reverseRecOn generalizing q with
  | nil => exact ⟨by simp, by decide⟩
  | append_singleton events ev ih =>
    have hfind' : ∀ ev ∈ events, (instrMap.find ev).isSome = true :=
      fun ev' hev' => hfind ev' (List.mem_append_left _ hev')
    rw [List.foldlM_append] at h
    obtain ⟨q₀, hq₀, hstep⟩ := Option.bind_eq_some_iff.mp h
    have hfront := ih hfind' hq₀
    obtain ⟨q₁, hq₁, hdelays⟩ :=
      importEvents_advanced hdb hfront (beginsWithInstruction_of_advanced hq₀) hfind'
    obtain rfl : q₀ = q₁ := Option.some.inj (hq₀.symm.trans hq₁)
    rw [List.foldlM_cons] at hstep
    obtain ⟨q₂, hevent, -⟩ := Option.bind_eq_some_iff.mp hstep
    obtain ⟨p, htime, hevent⟩ := Option.bind_eq_some_iff.mp hevent
    refine hfront.concat hdelays.clock htime fun hmem hoverflow => ?_
    rw [if_neg hmem, if_pos hoverflow] at hevent
    cases hevent

/-! ## The events that are still delayed -/

/-- **The memory event `ev` is still delayed behind `front ++ ev :: mid`**: no instruction has followed, or there
are too few branch outcomes for it or for a memory event before it. -/
def StillDelayed (instrMap : InstrMap) (front : List TraceEvent) (ev : TraceEvent) (mid : List TraceEvent) :
    Prop :=
  (∀ ev' ∈ mid, ev'.hasMemaddr = true) ∨
    ∃ entry ∈ entriesOf instrMap (front ++ [ev]),
      enoughFuture (knownBranches instrMap (front ++ ev :: mid)) entry = false

theorem enough_mono {n n' : ℕ} (hn : n ≤ n') {entry : DelayedTraceEntry} (h : enoughFuture n entry = true) :
    enoughFuture n' entry = true :=
  decide_eq_true ((of_decide_eq_true h).trans hn)

/-- There were enough branch outcomes for all events that have been inserted. -/
theorem enough_inserted (instrMap : InstrMap) (events : List TraceEvent) :
    ∀ entry ∈ (backlog instrMap events).inserted, enoughFuture (knownBranches instrMap events) entry = true := by
  induction events using List.reverseRecOn with
  | nil => exact List.forall_mem_nil _
  | append_singleton events ev ih =>
    intro entry hentry
    by_cases hmem : ev.hasMemaddr = true
    · rw [backlog_mem hmem] at hentry
      exact enough_mono (knownBranches_le events ev) (ih entry hentry)
    · rw [backlog_instr hmem] at hentry
      obtain hentry | hentry := List.mem_append.mp hentry
      · exact enough_mono (knownBranches_le events ev) (ih entry hentry)
      · exact List.mem_takeWhile_imp hentry

/-- An instruction leaves those events inserted for which, and before which, there are enough branch outcomes. -/
theorem inserted_instr (hmem : ¬ ev.hasMemaddr = true) :
    (backlog instrMap (events ++ [ev])).inserted =
      (entriesOf instrMap events).takeWhile (enoughFuture (knownBranches instrMap (events ++ [ev]))) := by
  rw [backlog_instr hmem, ← backlog_entries, List.takeWhile_append_of_pos]
  intro entry hentry
  exact enough_mono (knownBranches_le events ev) (enough_inserted instrMap events entry hentry)

theorem length_takeWhile_le {α : Type*} (p : α → Bool) (xs : List α) (y : α) (ys : List α) :
    ((xs ++ y :: ys).takeWhile p).length ≤ xs.length ↔ ∃ x ∈ xs ++ [y], p x = false := by
  induction xs with
  | nil =>
    rw [List.nil_append, List.takeWhile_cons]
    cases hy : p y with
    | true => simp [hy]
    | false => simp [hy]
  | cons x xs ih =>
    rw [List.cons_append, List.takeWhile_cons]
    cases hx : p x with
    | true => simp [hx, ih]
    | false => simp [hx]

/-- **The events that are still delayed are those for which there are too few branch outcomes.** -/
theorem stillDelayed_iff (hmem : ev.hasMemaddr = true) (front mid : List TraceEvent) :
    StillDelayed instrMap front ev mid ↔
      (backlog instrMap (front ++ ev :: mid)).inserted.length ≤ (entriesOf instrMap front).length := by
  induction mid using List.reverseRecOn with
  | nil =>
    rw [backlog_mem hmem, ← backlog_entries, List.length_append]
    exact iff_of_true (Or.inl (by simp)) (Nat.le_add_right _ _)
  | append_singleton mid ev' ih =>
    have hassoc : front ++ ev :: (mid ++ [ev']) = (front ++ ev :: mid) ++ [ev'] := by simp
    rw [StillDelayed, hassoc]
    by_cases hmem' : ev'.hasMemaddr = true
    · rw [backlog_mem hmem', knownBranches_mem hmem', ← ih, StillDelayed]
      refine or_congr_left ?_
      rw [List.forall_mem_append]
      simp [hmem']
    · have hentries : entriesOf instrMap (front ++ ev :: mid) =
          entriesOf instrMap front ++ entryAt instrMap front ev :: entriesFrom instrMap (front ++ [ev]) mid := by
        rw [entriesOf_append, entriesFrom, if_pos hmem]
        rfl
      rw [inserted_instr hmem', hentries, length_takeWhile_le, entriesOf_concat, if_pos hmem]
      refine or_iff_right fun hall => hmem' ?_
      exact hall ev' (List.mem_append_right _ (List.mem_singleton_self ev'))

end FailStar.ImportTrace
