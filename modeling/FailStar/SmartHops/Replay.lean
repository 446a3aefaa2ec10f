import FailStar.SmartHops.SpinChains
import FailStar.Trace.TracingPlugin
import FailStar.ImportTrace.EquivalenceClasses

/-! # Replaying a hop chain

An experiment navigates to an injection point in one of two ways: it waits for the hops of a chain, or it
counts instructions. Both start where the recording of the trace started, stopped at dynamic instruction 0.

* **`navigateHops`**, **`navigateSteps`** — the two ways of `navigateToInjectionPoint`.
* **`Execution`** — a run of the guest from the start of the recording; **`Execution.trace`** — its trace.
* **`ImporterAgrees`** — the importer numbers the instructions of the trace as the replay does.
* **`waitFor_hopChain`** — waiting for the hops of a chain to position `p` stops in instruction `p - 1` or
  earlier, unless the chain begins at the first position, whose breakpoint event lies in the past.
* **`hops_reach_step`** — so the chain for offset `k` leads to dynamic instruction `k` only if it waits `k`
  times for one and the same instruction. -/

namespace FailStar

/-! ## The two ways to navigate -/

/-- The listener for a hop of a message. -/
def hopListener : ℕ × HopAccessType → Listener
  | (address, .execute) => .bpSingle address
  | (address, .read) => .memAccess address .read
  | (address, .write) => .memAccess address .write

/-- **`navigateToInjectionPoint`** in a build with hop chains: `none` if it fails. The navigation fails at
the breakpoint `ev_func_end`, at address `funcEnd`; checkpoints are not implemented. -/
def navigateHops (w funcEnd : ℕ) (ipm : InjectionPointMessage) (r : Replay) : Option Replay :=
  if ipm.checkpointId.isSome then none else r.waitFor w (some funcEnd) (ipm.hops.map hopListener)

/-- **`navigateToInjectionPoint`** in a build that counts steps. -/
def navigateSteps (w injectionInstr : ℕ) (r : Replay) : Option Replay :=
  Replay.resume w none (.bpSingle (anyAddr w)) injectionInstr r.instr r.stream

/-- **A run of the guest**, from the instruction the experiment is stopped at when recording starts. The
back end delivers the same events in a replay. -/
structure Execution (w : ℕ) where
  /-- The time at the start. -/
  time : ℕ
  /-- The address of dynamic instruction 0. -/
  ip : ℕ
  /-- The events behind the start. -/
  stream : List SimEvent
  ip_lt : ip < 2 ^ w
  fits : ∀ ev ∈ stream, ev.Fits w

namespace Execution

variable {w : ℕ} (e : Execution w) (plugin : TracingPlugin)

/-- The trace `TracingPlugin` records. -/
def trace : List TraceEvent := plugin.run w e.time e.ip e.stream

/-- A replay stands at dynamic instruction 0. -/
def start : Replay := ⟨0, e.stream⟩

/-- Navigate along the chain `SmartHops` computes for offset `k` of the trace. -/
def replayHops (funcEnd k : ℕ) : Option Replay :=
  ((SmartHops.init (e.trace plugin)).calculateFollowingHop w k).bind fun (ipm, _) =>
    ipm.bind fun ipm => navigateHops w funcEnd ipm e.start

/-- Navigate to the `k`-th breakpoint event. -/
def replaySteps (k : ℕ) : Option Replay := navigateSteps w k e.start

/-- **The importer's numbering.** When the importer has read what was recorded up to the point where the
replay stands, it is at the same dynamic instruction. -/
def ImporterAgrees (r : Replay) : Prop :=
  ∀ (cfg : ImportTrace.Config) (kind : ImportTrace.Kind) (past : List SimEvent) (p : ImportTrace.Progress),
    e.stream = past ++ r.stream →
    (plugin.run w e.time e.ip past).foldlM (ImportTrace.importEvent cfg kind) {} = some p →
    p.instrMemaccess = r.instr

end Execution

/-! ## The positions of a recorded trace -/

/-- The listener for an event of a chain. -/
def listenerOf (te : TraceEventTuple) : Listener :=
  match te.2 with
  | .none => .bpSingle te.1
  | .read => .memAccess te.1 .read
  | _ => .memAccess te.1 .write

theorem hopListener_eq (hop : ℕ × HopAccessType) : hopListener hop = listenerOf (hopEvent hop) := by
  obtain ⟨address, type⟩ := hop
  cases type <;> rfl

theorem listenerOf_access {te : TraceEventTuple} (h : IsAccess te) :
    ∃ addr type, listenerOf te = .memAccess addr type := by
  rcases h with h | h <;> simp [listenerOf, h]

variable {w : ℕ} {plugin : TracingPlugin} {te : TraceEventTuple}

theorem bpMatches_self (w ip : ℕ) : bpMatches w ip ip = true := decide_eq_true (.inr rfl)

/-- The listener for a recorded byte matches the access. -/
theorem isMatching_of_mem_accessEvents {time ip addr width : ℕ} {type : AccessType} {ev : TraceEvent}
    (hev : ev.memaddr = some addr ∧ ev.width = some (width % 2 ^ 32) ∧ ev.accesstype = some type)
    (hfits : addr + width < 2 ^ w) (hte : te ∈ accessEvents w ev) :
    (listenerOf te).isMatching w (.memoryAccess time ip addr width type) = true := by
  obtain ⟨hmemaddr, hwidth, htype⟩ := hev
  rw [accessEvents, if_pos (by simp [hwidth]), TraceEvent.getWidth, TraceEvent.getMemaddr,
    TraceEvent.getAccesstype, hmemaddr, hwidth, htype] at hte
  obtain ⟨i, hi, rfl⟩ := List.mem_map.mp hte
  simp only [Option.getD_some, List.mem_range] at hi ⊢
  have hlt : i < width := hi.trans_le (Nat.mod_le _ _)
  -- neither the byte nor the end of the access wraps around
  have hpow : 2 ^ w ≤ 2 ^ max w 64 := Nat.pow_le_pow_right (by norm_num) (le_max_left w 64)
  rw [Nat.mod_eq_of_lt (show addr + i < 2 ^ w by omega)]
  have hend : (addr + width) % 2 ^ max w 64 = addr + width := Nat.mod_eq_of_lt (by omega)
  have hnext : (addr + i + 1) % 2 ^ max w 64 = addr + i + 1 := Nat.mod_eq_of_lt (by omega)
  cases type <;> simp [listenerOf, Listener.isMatching, hend, hnext] <;> omega

section Stamp

variable (w prevtime curtime : ℕ) (ev : TraceEvent)

theorem hasMemaddr_stamp : (TracingPlugin.stamp prevtime curtime ev).1.hasMemaddr = ev.hasMemaddr := by
  rw [TraceEvent.hasMemaddr, (TracingPlugin.stamp_fields prevtime curtime ev).2.1, TraceEvent.hasMemaddr]

theorem fetchEvent_stamp : fetchEvent w (TracingPlugin.stamp prevtime curtime ev).1 = fetchEvent w ev := by
  rw [fetchEvent, (TracingPlugin.stamp_fields prevtime curtime ev).1, fetchEvent]

end Stamp

/-- The positions read from the recording of a stream that begins in instruction `n`: every event of a
position is delivered in the instruction the position stands for, if no access touches the end of the address
space. -/
structure Delivered (w n : ℕ) (stream : List SimEvent) (front : List TraceEventTuple)
    (ps : List (List TraceEventTuple)) : Prop where
  front : (∀ ev ∈ stream, ev.Inside w) → ∀ te ∈ front, FiresIn w (listenerOf te) n stream n
  positions : (∀ ev ∈ stream, ev.Inside w) →
    ∀ i es, ps[i]? = some es → ∀ te ∈ es, FiresIn w (listenerOf te) n stream (n + 1 + i)
  fetches : ps.map List.head? = (breakpoints stream).map fun ip => some (ip, .none)

variable {n time ip addr width : ℕ} {type : AccessType} {stream : List SimEvent}
  {front accesses : List TraceEventTuple} {ps : List (List TraceEventTuple)}

/-- An instruction begins a new position. -/
theorem Delivered.breakpoint (h : Delivered w (n + 1) stream front ps) (time ip : ℕ) :
    Delivered w n (.breakpoint time ip :: stream) [] (((ip, .none) :: front) :: ps) where
  front := by simp
  positions := by
    intro hinside i es hes te hte
    have hrest := (List.forall_mem_cons.mp hinside).2
    cases i with
    | zero =>
      obtain rfl := Option.some.inj hes
      rcases List.mem_cons.mp hte with rfl | hte
      · exact .inl ⟨rfl, bpMatches_self w ip⟩
      · exact .inr (h.front hrest te hte)
    | succ i =>
      have hfires := h.positions hrest i es hes te hte
      rw [show n + 1 + 1 + i = n + 1 + (i + 1) by omega] at hfires
      exact .inr hfires
  fetches := by
    rw [breakpoints, List.map_cons, List.map_cons, h.fetches]
    rfl

/-- An access belongs to the position before. -/
theorem Delivered.memoryAccess (h : Delivered w n stream front ps)
    (hmatch : addr + width < 2 ^ w →
      ∀ te ∈ accesses, (listenerOf te).isMatching w (.memoryAccess time ip addr width type) = true) :
    Delivered w n (.memoryAccess time ip addr width type :: stream) (accesses ++ front) ps where
  front := by
    intro hinside te hte
    obtain ⟨hfits, hrest⟩ := List.forall_mem_cons.mp hinside
    rcases List.mem_append.mp hte with hte | hte
    · exact .inl ⟨rfl, hmatch hfits te hte⟩
    · exact .inr (h.front hrest te hte)
  positions := fun hinside i es hes te hte =>
    .inr (h.positions (List.forall_mem_cons.mp hinside).2 i es hes te hte)
  fetches := h.fetches

/-- **Recording and reading** a stream of events. -/
theorem delivered_record (hplugin : plugin.TracesInstructions) (hfits : ∀ ev ∈ stream, ev.Fits w)
    (prevtime n : ℕ) :
    Delivered w n stream (splitPositions w (plugin.record w prevtime stream)).1
      (splitPositions w (plugin.record w prevtime stream)).2 := by
  induction stream generalizing prevtime n with
  | nil =>
    exact ⟨by simp [TracingPlugin.record, splitPositions], by simp [TracingPlugin.record, splitPositions], rfl⟩
  | cons ev stream ih =>
    have hev := hfits ev List.mem_cons_self
    have hrest := ih fun ev' hev' => hfits ev' (List.mem_cons_of_mem _ hev')
    cases ev with
    | breakpoint time ip =>
      rw [TracingPlugin.record, TracingPlugin.message_breakpoint hplugin]
      simp only
      rw [splitPositions, if_neg (by rw [hasMemaddr_stamp]; simp [TraceEvent.hasMemaddr]), fetchEvent_stamp,
        fetchEvent, Nat.mod_eq_of_lt hev]
      exact (hrest _ (n + 1)).breakpoint time ip
    | memoryAccess time ip addr width type =>
      rw [TracingPlugin.record]
      cases hmessage : plugin.message w (.memoryAccess time ip addr width type) with
      | none => exact (hrest prevtime n).memoryAccess fun _ te hte => absurd hte List.not_mem_nil
      | some e =>
        have hfields := TracingPlugin.stamp_fields prevtime time e
        rw [TracingPlugin.message_memoryAccess hmessage] at hfields ⊢
        simp only
        rw [splitPositions, if_pos (by rw [hasMemaddr_stamp]; rfl)]
        exact (hrest _ n).memoryAccess fun hinside te hte =>
          isMatching_of_mem_accessEvents hfields.2 hinside hte

namespace Execution

variable {e : Execution w} {funcEnd k : ℕ}

theorem positions_trace (hplugin : plugin.TracesInstructions) :
    ∃ accesses ps, positions w (e.trace plugin) = ((e.ip, .none) :: accesses) :: ps ∧
      Delivered w 0 e.stream accesses ps := by
  refine ⟨_, _, ?_, delivered_record hplugin e.fits (TracingPlugin.stamp 0 e.time { ip := e.ip }).2 0⟩
  rw [trace, TracingPlugin.run, if_pos hplugin.traceIp, TracingPlugin.record,
    TracingPlugin.message_breakpoint hplugin]
  simp only [positions, fetchEvent_stamp, SimEvent.time]
  rw [fetchEvent, Nat.mod_eq_of_lt e.ip_lt]

end Execution

/-! ## Waiting for the hops of a chain -/

/-- The listeners for the hops of a chain. -/
def listeners (chain : List ResultTuple) : List Listener := chain.map fun hop => listenerOf hop.1

theorem listeners_spin (ip p k : ℕ) : listeners (spin (ip, .none) p k) = .replicate k (.bpSingle ip) := by
  rw [listeners, spin, List.map_map, List.eq_replicate_iff]
  refine ⟨by simp, fun l hl => ?_⟩
  obtain ⟨q, -, rfl⟩ := List.mem_map.mp hl
  rfl

/-- **Waiting for the hops of a chain** stops no later than the chain says, if the first hop fires where it
should and all later events are still to come. Position `p` is dynamic instruction `p - 1`. -/
theorem waitFor_hopChain {ps : List (List TraceEventTuple)} {p : ℕ} {rest : List ResultTuple}
    {funcEnd : Option ℕ} {r r' : Replay} (hp : 0 < p) (hrest : HopChain (Occurs ps) p rest)
    (hfires : FiresIn w (listenerOf te) r.instr r.stream (p - 1))
    (hlater : ∀ q te', p < q → Occurs ps q te' → FiresIn w (listenerOf te') r.instr r.stream (q - 1))
    (hwait : r.waitFor w funcEnd (listeners ((te, p) :: rest)) = some r') :
    r'.instr < hopTarget p rest := by
  induction rest generalizing te p r with
  | nil =>
    obtain ⟨r₁, hr₁, hr'⟩ := Option.bind_eq_some_iff.mp hwait
    obtain rfl := Option.some.inj hr'
    have hle := hfires.instr_le hr₁
    simp only [hopTarget]
    omega
  | cons hop rest ih =>
    obtain ⟨te₂, p₂⟩ := hop
    obtain ⟨r₁, hr₁, hr'⟩ := Option.bind_eq_some_iff.mp hwait
    have hle := hfires.instr_le hr₁
    have hlt := hrest.1.lt
    refine ih (by omega) hrest.2 ?_ (fun q te' hq hocc => ?_) hr'
    · exact (hlater p₂ te₂ hlt hrest.1.occurs).after hr₁ (by omega)
    · exact (hlater q te' (by omega) hocc).after hr₁ (by omega)

namespace Execution

variable {e : Execution w} {funcEnd k : ℕ}

/-- What occurs at a position of the trace is delivered in the replay, except for dynamic instruction 0. -/
theorem firesIn_of_occurs (hplugin : plugin.TracesInstructions) (hinside : ∀ ev ∈ e.stream, ev.Inside w) {p : ℕ}
    (hocc : Occurs (positions w (e.trace plugin)) p te) (hne : ¬ (p = 1 ∧ te = (e.ip, .none))) :
    FiresIn w (listenerOf te) 0 e.stream (p - 1) := by
  obtain ⟨accesses, ps, hps, hdel⟩ := positions_trace (e := e) hplugin
  obtain ⟨hpos, es, hes, hte⟩ := hocc
  rw [hps] at hes
  obtain ⟨i, rfl⟩ := Nat.exists_eq_succ_of_ne_zero hpos.ne'
  cases i with
  | zero =>
    obtain rfl := Option.some.inj hes
    rcases List.mem_cons.mp hte with rfl | hte
    · exact absurd ⟨rfl, rfl⟩ hne
    · exact hdel.front hinside te hte
  | succ i =>
    have hfires := hdel.positions hinside i es hes te hte
    rwa [show 0 + 1 + i = (i + 1).succ - 1 by omega] at hfires

theorem occurs_of_breakpoint (hplugin : plugin.TracesInstructions) {i ip : ℕ}
    (hip : (breakpoints e.stream)[i]? = some ip) :
    Occurs (positions w (e.trace plugin)) (i + 2) (ip, .none) := by
  obtain ⟨accesses, ps, hps, hdel⟩ := positions_trace (e := e) hplugin
  have hfetch := congrArg (·[i]?) hdel.fetches
  simp only [List.getElem?_map, hip, Option.map_some] at hfetch
  obtain ⟨es, hes, hhead⟩ := Option.map_eq_some_iff.mp hfetch
  rw [hps]
  exact (occurs_succ (show (((e.ip, .none) :: accesses) :: ps)[i + 1]? = some es from hes)).mpr
    (List.mem_of_head? hhead)

theorem length_positions (hplugin : plugin.TracesInstructions) :
    (positions w (e.trace plugin)).length = (breakpoints e.stream).length + 1 := by
  obtain ⟨accesses, ps, hps, hdel⟩ := positions_trace (e := e) hplugin
  have hlen := congrArg List.length hdel.fetches
  rw [List.length_map, List.length_map] at hlen
  rw [hps, List.length_cons, hlen]

/-- If all events up to position `k` occur at the first one, all instructions up to there are the same. -/
theorem eq_ip_of_mem_take (hplugin : plugin.TracesInstructions) {j ip : ℕ}
    (hall : ∀ p ≤ j + 1, ∀ te, Occurs (positions w (e.trace plugin)) p te →
      Occurs (positions w (e.trace plugin)) 1 te)
    (hip : ip ∈ (breakpoints e.stream).take j) : ip = e.ip := by
  obtain ⟨accesses, ps, hps, -⟩ := positions_trace (e := e) hplugin
  have hfirst : (positions w (e.trace plugin))[0]? = some ((e.ip, .none) :: accesses) := by
    rw [hps]
    rfl
  obtain ⟨i, hi⟩ := List.mem_iff_getElem?.mp hip
  rw [List.getElem?_take] at hi
  split at hi
  · have hocc := hall (i + 2) (by omega) _ (occurs_of_breakpoint hplugin hi)
    exact (Prod.mk.inj (eq_fetch_of_occurs_one (tracePosition_of_mem w _) hfirst hocc rfl)).1
  · cases hi

/-- A chain that waits for dynamic instruction 0 at `j > 0` positions is computed only if all events up to
the next position occur at the first one. -/
theorem occurs_one_of_spin {ps : List (List TraceEventTuple)} {x : TraceEventTuple} {j : ℕ}
    {rest : List ResultTuple} (hspin : SpinChain ps x k (spin x 1 j ++ rest)) (hj : j < k) (p : ℕ)
    (hp : p ≤ j + 1) (te : TraceEventTuple) (hocc : Occurs ps p te) : Occurs ps 1 te := by
  cases j with
  | zero => rwa [show p = 1 by have := hocc.1; omega] at hocc
  | succ j =>
    rcases hspin.start with ⟨te', p', hlt, hhead⟩ | ⟨-, hall⟩
    · obtain ⟨-, rfl⟩ := Prod.mk.inj (Option.some.inj hhead)
      exact absurd hlt (lt_irrefl 1)
    · exact hall p (by omega) te hocc

/-- **A chain that does not wait for dynamic instruction 0 at every position** stops too early. -/
theorem instr_lt_of_ne_spin (hplugin : plugin.TracesInstructions)
    (hinside : ∀ ev ∈ e.stream, ev.Inside w) {chain : List ResultTuple} {r : Replay}
    (hspin : SpinChain (positions w (e.trace plugin)) (e.ip, .none) k chain)
    (hchain : HopChain (Occurs (positions w (e.trace plugin))) 0 chain) (htarget : hopTarget 0 chain = k)
    (hlen : k ≤ (breakpoints e.stream).length) (hne : chain ≠ spin (e.ip, .none) 1 k)
    (hwait : e.start.waitFor w (some funcEnd) (listeners chain) = some r) : r.instr < k := by
  obtain ⟨accesses, ps, hps, -⟩ := positions_trace (e := e) hplugin
  have hzero : (positions w (e.trace plugin))[0]? = some ((e.ip, .none) :: accesses) := by
    rw [hps]
    rfl
  obtain ⟨j, rest, rfl, hhead⟩ := exists_spin_append (e.ip, .none) 1 chain
  cases rest with
  | nil =>
    rw [List.append_nil] at htarget hne
    rw [hopTarget_spin] at htarget
    exact absurd (htarget ▸ rfl) hne
  | cons hop rest =>
    obtain ⟨te, p⟩ := hop
    obtain ⟨-, hfirst, hrest⟩ := hopChain_append.mp hchain
    rw [hopTarget_spin] at hfirst
    rw [hopTarget_append, hopTarget] at htarget
    have hjp := hfirst.lt
    have hpk : p ≤ k := htarget ▸ hrest.le_hopTarget
    have hall := occurs_one_of_spin hspin (by omega)
    rw [listeners, List.map_append] at hwait
    obtain ⟨r₁, hr₁, hwait⟩ := waitFor_append.mp hwait
    rw [show List.map _ (spin _ 1 j) = _ from listeners_spin e.ip 1 j] at hr₁
    -- the first `j` hops lead to dynamic instruction `j`
    have hinstr : r₁.instr = 0 + j := instr_of_waitFor (show j ≤ (breakpoints e.stream).length by omega)
      (fun ip hip => eq_ip_of_mem_take hplugin hall hip ▸ bpMatches_self w _) hr₁
    -- at the next hop, one position further, the breakpoint of the instruction lies in the past
    have hmem : r₁.instr < p - 1 ∨ r₁.instr ≤ p - 1 ∧ ∃ addr type, listenerOf te = .memAccess addr type := by
      rcases Nat.lt_or_ge (j + 1) p with hlt | hge
      · exact .inl (by omega)
      · obtain rfl : p = j + 1 := by omega
        refine .inr ⟨by omega, listenerOf_access ?_⟩
        refine isAccess_of_occurs_one (tracePosition_of_mem w _) hzero (hall _ le_rfl te hfirst.occurs) ?_
        rintro rfl
        exact hhead (by rw [Nat.add_comm]; rfl)
    rw [← htarget]
    refine waitFor_hopChain (by omega) hrest ?_ (fun q te' hq hocc => ?_) hwait
    · refine (firesIn_of_occurs hplugin hinside hfirst.occurs ?_).after_replicate hr₁ hinstr hmem
      rintro ⟨rfl, rfl⟩
      obtain rfl : j = 0 := by omega
      exact hhead rfl
    · exact (firesIn_of_occurs hplugin hinside hocc (by omega)).after_replicate hr₁ hinstr (.inl (by omega))

/-! ## The importer's numbering -/

theorem instructionCount_record (hplugin : plugin.TracesInstructions) (prevtime : ℕ) (stream : List SimEvent) :
    ImportTrace.instructionCount (plugin.record w prevtime stream) = (breakpoints stream).length := by
  induction stream generalizing prevtime with
  | nil => rfl
  | cons ev stream ih =>
    cases ev with
    | breakpoint time ip =>
      rw [TracingPlugin.record, TracingPlugin.message_breakpoint hplugin]
      simp only
      rw [ImportTrace.instructionCount_cons_of_not_mem
        (by rw [hasMemaddr_stamp]; simp [TraceEvent.hasMemaddr]), ih]
      rfl
    | memoryAccess time ip addr width type =>
      rw [TracingPlugin.record, breakpoints]
      cases hmessage : plugin.message w (.memoryAccess time ip addr width type) with
      | none => exact ih prevtime
      | some ev =>
        rw [TracingPlugin.message_memoryAccess hmessage]
        simp only
        rw [ImportTrace.instructionCount_cons_of_mem (by rw [hasMemaddr_stamp]; rfl), ih]

/-- Where a replay stands, the importer's numbering agrees. -/
theorem importerAgrees_of_past (hplugin : plugin.TracesInstructions) {r : Replay}
    (h : ∃ past, e.stream = past ++ r.stream ∧ r.instr = instrBehind 0 past) : e.ImporterAgrees plugin r := by
  intro cfg kind past p hpast hp
  obtain ⟨past', hpast', hinstr⟩ := h
  obtain rfl : past' = past := List.append_cancel_right (hpast'.symm.trans hpast)
  rw [TracingPlugin.run, if_pos hplugin.traceIp, TracingPlugin.record,
    TracingPlugin.message_breakpoint hplugin] at hp
  simp only [List.foldlM_cons] at hp
  obtain ⟨p₁, hp₁, hrest⟩ := Option.bind_eq_some_iff.mp hp
  -- dynamic instruction 0 comes first
  have hnot : ¬ (TracingPlugin.stamp 0 (SimEvent.breakpoint e.time e.ip).time { ip := e.ip }).1.hasMemaddr =
    true := by
    rw [hasMemaddr_stamp]
    simp [TraceEvent.hasMemaddr]
  obtain ⟨hinstr₁, hmemaccess₁⟩ := ImportTrace.importEvent_instr hp₁
  rw [ImportTrace.instructionCount_cons_of_not_mem hnot] at hinstr₁
  rw [if_neg hnot] at hmemaccess₁
  obtain ⟨hcount, hlast⟩ := ImportTrace.importEvents_instr hrest (hinstr₁.trans (hmemaccess₁ ▸ rfl))
  rw [instructionCount_record hplugin, hinstr₁, hlast] at hcount
  rw [hinstr, instrBehind_eq]
  simp only [ImportTrace.instructionCount, List.countP_nil] at hcount
  omega

/-! ## The result -/

/-- **The loop in which both ways to navigate agree**: the positions up to `k` are nested, so that the chain
waits for dynamic instruction 0 at all of them, and the breakpoint matches all instructions up to `k`, while
the breakpoint that signals an error matches none. -/
structure SpinsUpTo (e : Execution w) (plugin : TracingPlugin) (funcEnd k : ℕ) : Prop where
  nested : Nested (positions w (e.trace plugin)) k
  matching : ∀ ip ∈ (breakpoints e.stream).take k,
    bpMatches w e.ip ip = true ∧ ¬ bpMatches w funcEnd ip = true

/-- Navigating along the chain for offset `k` is waiting for the hops of the calculator's chain. -/
theorem replayHops_eq (hplugin : plugin.TracesInstructions) (funcEnd : ℕ) (hk : 0 < k)
    (hlen : k ≤ (breakpoints e.stream).length) (hlt : k < 2 ^ 32) :
    ∃ st, ChainUpTo SmartHops.options (Occurs (positions w (e.trace plugin))) k st ∧
      SpinChain (positions w (e.trace plugin)) (e.ip, .none) k st.result ∧
      e.replayHops plugin funcEnd k = e.start.waitFor w (some funcEnd) (listeners st.result) := by
  have hpositions := tracePosition_of_mem w (e.trace plugin)
  have hlen' : k ≤ (positions w (e.trace plugin)).length := by
    rw [length_positions hplugin]
    omega
  obtain ⟨accesses, ps, hps, -⟩ := positions_trace (e := e) hplugin
  obtain ⟨st, hst, hchain, hspin⟩ := hopStateAt_spinChain hpositions
    (show (positions w (e.trace plugin))[0]? = some ((e.ip, .none) :: accesses) by rw [hps]; rfl) hk hlt hlen'
  obtain ⟨ip, sh, hcalc, hmsg, -⟩ := SmartHops.calculateFollowingHop_at (SmartHops.at_init w (e.trace plugin))
    hpositions (Nat.zero_le k) hlen' hlt
  obtain ⟨ip', hip', -, hcheckpoint, -, hhops⟩ := convertToIPM_of_plain st.costs fun hop hhop =>
    (hchain.events hop hhop).2
  rw [hopMessage, hst, Option.bind_some, hip'] at hmsg
  obtain rfl := Option.some.inj hmsg
  refine ⟨st, hchain, hspin, ?_⟩
  have hlisteners : ip'.hops.map hopListener = listeners st.result := by
    rw [show hopListener = listenerOf ∘ hopEvent from funext hopListener_eq, ← List.map_map, hhops,
      List.map_map]
    rfl
  rw [replayHops, hcalc]
  simp only [Option.bind_some, navigateHops, hcheckpoint, Option.isSome_none, Bool.false_eq_true, if_false,
    hlisteners]

theorem waitFor_spin_iff (hlen : k ≤ (breakpoints e.stream).length) :
    (∃ r, e.start.waitFor w (some funcEnd) (listeners (spin (e.ip, .none) 1 k)) = some r ∧ r.instr = k) ↔
      ∀ ip ∈ (breakpoints e.stream).take k, bpMatches w e.ip ip = true ∧ ¬ bpMatches w funcEnd ip = true := by
  have hloop := waitFor_replicate_iff w (some funcEnd) e.ip
    (show k ≤ (breakpoints e.start.stream).length from hlen)
  rwa [show e.start.instr + k = k from Nat.zero_add k, ← listeners_spin e.ip 1 k] at hloop

/-- In a loop, the chain for offset `k` leads to dynamic instruction `k`. -/
theorem SpinsUpTo.replayHops (h : e.SpinsUpTo plugin funcEnd k) (hplugin : plugin.TracesInstructions)
    (hk : 0 < k) (hlen : k ≤ (breakpoints e.stream).length) (hlt : k < 2 ^ 32) :
    ∃ r, e.replayHops plugin funcEnd k = some r ∧ r.instr = k := by
  obtain ⟨st, -, hspin, hreplay⟩ := replayHops_eq (e := e) hplugin funcEnd hk hlen hlt
  rw [hreplay, hspin.spin_iff.mpr h.nested]
  exact (waitFor_spin_iff hlen).mpr h.matching

/-- Nowhere else does it do so. -/
theorem spinsUpTo_of_replayHops {r : Replay} (hr : e.replayHops plugin funcEnd k = some r) (hinstr : r.instr = k)
    (hplugin : plugin.TracesInstructions) (hinside : ∀ ev ∈ e.stream, ev.Inside w) (hk : 0 < k)
    (hlen : k ≤ (breakpoints e.stream).length) (hlt : k < 2 ^ 32) : e.SpinsUpTo plugin funcEnd k := by
  obtain ⟨st, hchain, hspin, hreplay⟩ := replayHops_eq (e := e) hplugin funcEnd hk hlen hlt
  rw [hreplay] at hr
  have hresult : st.result = spin (e.ip, .none) 1 k := by
    by_contra hne
    have hearly := instr_lt_of_ne_spin hplugin hinside hspin hchain.chain hchain.target hlen hne hr
    exact hearly.ne hinstr
  rw [hresult] at hr
  exact ⟨hspin.spin_iff.mp hresult, (waitFor_spin_iff hlen).mp ⟨r, hr, hinstr⟩⟩

/-- **Hop chains and steps.** For every run of the guest, every recording of it that contains all
instructions, and every offset `k` of the trace: counting `k` breakpoint events stops at dynamic instruction
`k` in the numbering of the importer, and if the run spins up to there, waiting for the hops computed for
offset `k` stops at the same dynamic instruction. Unless an access touches the end of the address space, it
does so only then. -/
theorem hops_reach_step (e : Execution w) (plugin : TracingPlugin) (hplugin : plugin.TracesInstructions)
    (funcEnd k : ℕ) (hk : 1 ≤ k) (hlen : k ≤ (breakpoints e.stream).length) (hlt : k < 2 ^ 32) :
    (∃ r, e.replaySteps k = some r ∧ r.instr = k ∧ e.ImporterAgrees plugin r) ∧
    (∀ r, e.replayHops plugin funcEnd k = some r → e.ImporterAgrees plugin r) ∧
    (e.SpinsUpTo plugin funcEnd k →
      (e.replayHops plugin funcEnd k).map Replay.instr = (e.replaySteps k).map Replay.instr) ∧
    ((∀ ev ∈ e.stream, ev.Inside w) →
      (e.replayHops plugin funcEnd k).map Replay.instr = (e.replaySteps k).map Replay.instr →
      e.SpinsUpTo plugin funcEnd k) := by
  obtain ⟨r, hr, hinstr⟩ := resume_counter (n := 0) hk hlen
  rw [Nat.zero_add] at hinstr
  have hsteps : (e.replaySteps k).map Replay.instr = some k := by
    rw [show e.replaySteps k = some r from hr, Option.map_some, hinstr]
  refine ⟨⟨r, hr, hinstr, importerAgrees_of_past hplugin (resume_past hr)⟩, ?_, ?_, ?_⟩
  · intro r' hr'
    obtain ⟨st, -, -, hreplay⟩ := replayHops_eq (e := e) hplugin funcEnd hk hlen hlt
    rw [hreplay] at hr'
    exact importerAgrees_of_past hplugin (waitFor_past hr')
  · intro hspins
    rw [hsteps, Option.map_eq_some_iff]
    exact hspins.replayHops hplugin hk hlen hlt
  · intro hinside hagree
    rw [hsteps, Option.map_eq_some_iff] at hagree
    obtain ⟨r', hr', hinstr'⟩ := hagree
    exact spinsUpTo_of_replayHops hr' hinstr' hplugin hinside hk hlen hlt

/-- An instruction that jumps to itself. -/
def spinLoop : Execution 32 where
  time := 0
  ip := 10
  stream := [.breakpoint 1 10, .breakpoint 2 10, .breakpoint 3 10]
  ip_lt := by decide
  fits := by decide

theorem hops_reach_step_spinLoop :
    spinLoop.SpinsUpTo {} 99 2 ∧
      (spinLoop.replayHops {} 99 2).map Replay.instr = (spinLoop.replaySteps 2).map Replay.instr := by
  obtain ⟨-, -, hagree, hspins⟩ :=
    hops_reach_step spinLoop {} ⟨rfl, rfl⟩ 99 2 (by decide) (by decide) (by decide)
  have hloop : spinLoop.SpinsUpTo {} 99 2 := by
    refine hspins (fun ev hev => ?_) (by decide +kernel)
    simp only [spinLoop, List.mem_cons, List.not_mem_nil, or_false] at hev
    rcases hev with rfl | rfl | rfl <;> trivial
  exact ⟨hloop, hagree hloop⟩

/-- Three instructions without a branch. -/
def straightLine : Execution 32 where
  time := 0
  ip := 10
  stream := [.breakpoint 1 20, .breakpoint 2 30]
  ip_lt := by decide
  fits := by decide

/-- For offset 2 the chain leads to dynamic instruction 1, one instruction before the second breakpoint
event. -/
theorem hops_stop_one_instruction_early :
    TracingPlugin.TracesInstructions {} ∧ 2 ≤ (breakpoints straightLine.stream).length ∧
      (straightLine.replayHops {} 99 2).map Replay.instr = some 1 ∧
      (straightLine.replaySteps 2).map Replay.instr = some 2 := by
  refine ⟨⟨rfl, rfl⟩, by decide, ?_, ?_⟩ <;> decide +kernel

end Execution

end FailStar
