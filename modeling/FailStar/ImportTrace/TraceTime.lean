import FailStar.Foundations.Timeline
import FailStar.ImportTrace.EquivalenceClasses

/-! # The time of a trace

Events carry the time since the previous event. The importer adds these deltas up, takes the first one that
is not zero for the start of the trace, and numbers the instructions.

* **`stamped`** — the events of a trace with their instruction and time; **`StrictlyLater`** — instructions
  take time.
* **`stamped_inOrder`** — then the events are in order on both axes.
* **`touches`** — the bytes an importer looks at, stamped like the event they belong to; **`laneAt`** — the
  lane of an address. -/

namespace FailStar.ImportTrace

/-! ## The time of a trace -/

/-- The time since the previous event; an absent delta is none. -/
def timeSince (ev : TraceEvent) : ℕ := (ev.timeDelta.getD 0).toNat

/-- The time behind some events. -/
def traceTime (events : List TraceEvent) : ℕ := (events.map timeSince).sum

/-- The first time delta that is not zero, which the importer takes for the start of the trace. -/
def traceStart (events : List TraceEvent) : ℕ := ((events.map timeSince).find? fun delta => delta ≠ 0).getD 0

/-- The stamp of the event `ev` behind the events `front`. Memory accesses belong to the last instruction. -/
def stampOf (front : List TraceEvent) (ev : TraceEvent) : Stamp where
  instr := if ev.hasMemaddr then instructionCount front - 1 else instructionCount front
  time := traceTime (front ++ [ev])
  start := traceStart (front ++ [ev])

/-- The stamped events behind `front`. -/
def stampedFrom : List TraceEvent → List TraceEvent → List (TraceEvent × Stamp)
  | _, [] => []
  | front, ev :: events => (ev, stampOf front ev) :: stampedFrom (front ++ [ev]) events

/-- **The stamped events of a trace.** -/
def stamped (events : List TraceEvent) : List (TraceEvent × Stamp) := stampedFrom [] events

/-- Every instruction event is strictly later than all events of earlier instructions. -/
def StrictlyLater (events : List TraceEvent) : Prop :=
  (stamped events).Pairwise fun x y =>
    y.1.hasMemaddr = false → x.2.instr < y.2.instr → x.2.time < y.2.time

instance (events : List TraceEvent) : Decidable (StrictlyLater events) :=
  inferInstanceAs (Decidable (List.Pairwise _ _))

variable {events : List TraceEvent} {ev : TraceEvent} {cfg : Config} {kind : Kind}

theorem stampedFrom_concat (front events : List TraceEvent) (ev : TraceEvent) :
    stampedFrom front (events ++ [ev]) = stampedFrom front events ++ [(ev, stampOf (front ++ events) ev)] := by
  induction events generalizing front with
  | nil => simp [stampedFrom]
  | cons ev' events ih =>
    rw [List.cons_append, stampedFrom, stampedFrom, ih, List.append_assoc, List.singleton_append,
      List.cons_append]

theorem stamped_concat (events : List TraceEvent) (ev : TraceEvent) :
    stamped (events ++ [ev]) = stamped events ++ [(ev, stampOf events ev)] := by
  rw [stamped, stampedFrom_concat]
  rfl

theorem traceTime_concat (events : List TraceEvent) (ev : TraceEvent) :
    traceTime (events ++ [ev]) = traceTime events + timeSince ev := by
  simp [traceTime]

theorem traceStart_concat (events : List TraceEvent) (ev : TraceEvent) :
    traceStart (events ++ [ev]) = if traceStart events = 0 then timeSince ev else traceStart events := by
  rw [traceStart, List.map_append, List.find?_append]
  cases hfind : (events.map timeSince).find? (fun delta => delta ≠ 0) with
  | none =>
    have hstart : traceStart events = 0 := by
      rw [traceStart, hfind]
      rfl
    rw [if_pos hstart, Option.none_or, List.map_singleton]
    by_cases hev : timeSince ev = 0
    · simp [hev]
    · simp [hev]
  | some delta =>
    have hdelta : delta ≠ 0 := by simpa using List.find?_some hfind
    have hstart : traceStart events = delta := by
      rw [traceStart, hfind]
      rfl
    rw [hstart, if_neg hdelta]
    rfl

theorem traceStart_le_traceTime (events : List TraceEvent) : traceStart events ≤ traceTime events := by
  induction events using List.reverseRecOn with
  | nil => exact le_rfl
  | append_singleton events ev ih =>
    rw [traceStart_concat, traceTime_concat]
    split <;> omega

theorem instructionCount_concat (events : List TraceEvent) (ev : TraceEvent) :
    instructionCount (events ++ [ev]) = instructionCount events + if ev.hasMemaddr then 0 else 1 := by
  rw [instructionCount, List.countP_append, List.countP_singleton]
  cases ev.hasMemaddr <;> rfl

/-- What is known of the stamp of an event at the end of the trace. -/
structure StampBounds (events : List TraceEvent) (x : Stamp) : Prop where
  instr : x.instr ≤ instructionCount events - 1
  time : x.time ≤ traceTime events
  earlier : x.instr < instructionCount events - 1 → x.time < traceTime events
  start_le : x.start ≤ x.time
  start : x.start = 0 ∨ x.start = traceStart events

theorem stampBounds_stampOf (events : List TraceEvent) (ev : TraceEvent) :
    StampBounds (events ++ [ev]) (stampOf events ev) := by
  have hinstr : (stampOf events ev).instr = instructionCount (events ++ [ev]) - 1 := by
    rw [instructionCount_concat, stampOf]
    cases ev.hasMemaddr <;> rfl
  exact ⟨hinstr.le, le_rfl, fun hlt => absurd hinstr hlt.ne, traceStart_le_traceTime _, .inr rfl⟩

theorem StampBounds.concat {x : Stamp} (h : StampBounds events x)
    (hlater : ev.hasMemaddr = false → x.instr < instructionCount events → x.time < traceTime (events ++ [ev])) :
    StampBounds (events ++ [ev]) x := by
  have hinstr := h.instr
  have htime := h.time
  have hearlier := h.earlier
  refine ⟨?_, ?_, ?_, h.start_le, ?_⟩
  · rw [instructionCount_concat]
    split <;> omega
  · rw [traceTime_concat]
    omega
  · intro hlt
    rw [instructionCount_concat] at hlt
    cases hmem : ev.hasMemaddr with
    | true =>
      rw [hmem, if_pos rfl] at hlt
      have := hearlier hlt
      rw [traceTime_concat]
      omega
    | false =>
      rw [hmem, if_neg Bool.false_ne_true] at hlt
      exact hlater hmem hlt
  · rw [traceStart_concat]
    rcases h.start with hzero | hstart
    · exact .inl hzero
    · split
      · rename_i hzero
        exact .inl (hstart.trans hzero)
      · exact .inr hstart

theorem StrictlyLater.front (h : StrictlyLater (events ++ [ev])) : StrictlyLater events := by
  rw [StrictlyLater, stamped_concat] at h
  exact (List.pairwise_append.mp h).1

/-- An instruction event at the end is later than everything before it. -/
theorem StrictlyLater.time_lt (h : StrictlyLater (events ++ [ev])) {x : TraceEvent × Stamp}
    (hx : x ∈ stamped events) (hmem : ev.hasMemaddr = false) (hlt : x.2.instr < instructionCount events) :
    x.2.time < traceTime (events ++ [ev]) := by
  rw [StrictlyLater, stamped_concat] at h
  refine (List.pairwise_append.mp h).2.2 x hx _ (List.mem_singleton_self _) hmem ?_
  rw [stampOf, hmem]
  exact hlt

theorem stampBounds_of_mem (hlater : StrictlyLater events) {x : TraceEvent × Stamp} (hx : x ∈ stamped events) :
    StampBounds events x.2 := by
  induction events using List.reverseRecOn with
  | nil => exact absurd hx List.not_mem_nil
  | append_singleton events ev ih =>
    rw [stamped_concat] at hx
    rcases List.mem_append.mp hx with hx | hx
    · exact (ih hlater.front hx).concat (hlater.time_lt hx)
    · rw [List.mem_singleton.mp hx]
      exact stampBounds_stampOf events ev

/-- **The events are in order**: by instruction, and later instructions at later times. -/
theorem stamped_inOrder (hlater : StrictlyLater events) : InOrder ((stamped events).map Prod.snd) := by
  induction events using List.reverseRecOn with
  | nil => exact List.Pairwise.nil
  | append_singleton events ev ih =>
    rw [stamped_concat, List.map_append]
    refine List.pairwise_append.mpr ⟨ih hlater.front, List.pairwise_singleton _ _, ?_⟩
    intro x hx y hy
    obtain ⟨e, he, rfl⟩ := List.mem_map.mp hx
    obtain rfl : y = stampOf events ev := List.mem_singleton.mp hy
    have hbounds := stampBounds_of_mem hlater.front he
    have hinstr := hbounds.instr
    simp only [stampOf]
    cases hmem : ev.hasMemaddr with
    | true =>
      refine ⟨hinstr, fun hlt => ?_⟩
      have := hbounds.earlier hlt
      rw [traceTime_concat]
      omega
    | false =>
      refine ⟨?_, hlater.time_lt he hmem⟩
      simp only [Bool.false_eq_true, if_false]
      omega

/-! ## The bytes an importer looks at -/

/-- The bytes `addRegisterTrace` visits. -/
def RegisterImporter.bytesOf (imp : RegisterImporter) (cfg : Config) (ev : TraceEvent) (info : RegInfo) :
    List ℕ :=
  let lo := cfg.address info.toDataAddress
  let hi := if imp.doSplitRegisters then cfg.address (info.toDataAddress + info.width / 8)
    else cfg.address (lo + 1)
  (List.range' lo (hi - lo)).filter fun _ => cfg.isMatching (cfg.address ev.ip)

/-- The bytes of a register we want to inject into. -/
def RegisterImporter.registerBytes (imp : RegisterImporter) (cfg : Config) (ev : TraceEvent) (reg : ℕ) :
    List ℕ :=
  match imp.getFailRegisterInfo reg with
  | none => []
  | some info => if info.id ∈ imp.registerIds then imp.bytesOf cfg ev info else []

/-- The bytes of the instruction pointer, which is read and written. -/
def RegisterImporter.pcBytes (imp : RegisterImporter) (cfg : Config) (ev : TraceEvent) : List ℕ :=
  if imp.doIp then imp.bytesOf cfg ev imp.infoPc ++ imp.bytesOf cfg ev imp.infoPc else []

/-- The bytes of the operands of an instruction. -/
def RegisterImporter.operandBytes (imp : RegisterImporter) (cfg : Config) (ev : TraceEvent) : List ℕ :=
  match imp.instrMap.find ev with
  | none => []
  | some opcode =>
    opcode.regUses.flatMap (imp.registerBytes cfg ev) ++ opcode.regDefs.flatMap (imp.registerBytes cfg ev)

/-- The bytes from `lo` up to `hi` that the memory map lists. -/
def Config.listedBytes (cfg : Config) (lo hi : ℕ) : List ℕ :=
  (List.range' (cfg.address lo) (cfg.address hi - cfg.address lo)).filter cfg.isMatching

/-- **The bytes the importer looks at** in an event, in the order of its loops. -/
def Kind.bytes (cfg : Config) (kind : Kind) (ev : TraceEvent) : List ℕ :=
  match kind with
  | memory => if ev.hasMemaddr then cfg.listedBytes ev.getMemaddr (ev.getMemaddr + ev.getWidth) else []
  | instruction instrMap =>
    if ev.hasMemaddr then []
    else ((instrMap.find ev).map fun opcode => cfg.listedBytes ev.ip (ev.ip + opcode.length)).getD []
  | register imp => if ev.hasMemaddr then [] else imp.pcBytes cfg ev ++ imp.operandBytes cfg ev

/-- **The stamped bytes of a trace.** -/
def touches (cfg : Config) (kind : Kind) (events : List TraceEvent) : List (ℕ × Stamp) :=
  (stamped events).flatMap fun e => (kind.bytes cfg e.1).map fun a => (a, e.2)

theorem touches_concat (events : List TraceEvent) (ev : TraceEvent) :
    touches cfg kind (events ++ [ev]) =
      touches cfg kind events ++ (kind.bytes cfg ev).map fun a => (a, stampOf events ev) := by
  rw [touches, stamped_concat, List.flatMap_append, List.flatMap_singleton]
  rfl

/-- The stamps of an address. -/
def stampsAt (touched : List (ℕ × Stamp)) (a : ℕ) : List Stamp :=
  (touched.filter fun x => x.1 = a).map Prod.snd

/-- The lane of an address, with 64 bit of time. -/
def laneAt (touched : List (ℕ × Stamp)) (a : ℕ) : Lane := lane (2 ^ 64) (stampsAt touched a)

theorem stampsAt_concat (touched : List (ℕ × Stamp)) (a a' : ℕ) (x : Stamp) :
    stampsAt (touched ++ [(a, x)]) a' = if a = a' then stampsAt touched a' ++ [x] else stampsAt touched a' := by
  rw [stampsAt, map_filter_fst_concat]
  rfl

theorem laneAt_concat (touched : List (ℕ × Stamp)) (a a' : ℕ) (x : Stamp) :
    laneAt (touched ++ [(a, x)]) a' =
      if a = a' then (laneAt touched a').stamp (2 ^ 64) x else laneAt touched a' := by
  rw [laneAt, stampsAt_concat]
  split
  · exact lane_concat _ _ _
  · rfl

end FailStar.ImportTrace
