import FailStar.Sal.Listener
import FailStar.Util.MemoryMap

/-! # Recording a trace

`TracingPlugin` listens to all instructions and memory accesses of the guest and writes a trace file. The
instruction the experiment is stopped at when the plugin starts is written before the first resume.

* **`TracingPlugin.message`** — what is written for an event, if anything; the restrictions to memory and
  instruction addresses are applied together.
* **`TracingPlugin.record`** — the main loop, with the time stamps.
* **`TracingPlugin.run`** — a whole recording.

The human-readable trace and the extended trace information are left out. -/

namespace FailStar

/-- The value of `getTimerTicks()` at the event. -/
def SimEvent.time : SimEvent → ℕ
  | .breakpoint time _ => time
  | .memoryAccess time _ _ _ _ => time

/-- `TracingPlugin`, writing into a trace file. -/
structure TracingPlugin where
  /-- `m_memMap`. -/
  memMap : Option MemoryMap := none
  /-- `m_ipMap`. -/
  ipMap : Option MemoryMap := none
  /-- `m_tracetype & TRACE_IP`. -/
  traceIp : Bool := true
  /-- `m_tracetype & TRACE_MEM`. -/
  traceMem : Bool := true

namespace TracingPlugin

/-- The message for an event, without its time. Without `TRACE_IP` or `TRACE_MEM` the plugin has no listener
for the event. -/
def message (w : ℕ) (plugin : TracingPlugin) : SimEvent → Option TraceEvent
  | .breakpoint _ ip =>
    if plugin.traceIp && plugin.ipMap.all (·.isMatching ip) then some { ip } else none
  | .memoryAccess _ ip addr width accesstype =>
    if plugin.traceMem && plugin.ipMap.all (·.isMatching ip) &&
        plugin.memMap.all (·.isMatchingAccess w addr width) then
      some { ip, memaddr := some addr, width := some (width % 2 ^ 32), accesstype := some accesstype }
    else none

/-- The message with its `time_delta`, and `prevtime` after. Only deltas other than zero are stored. -/
def stamp (prevtime curtime : ℕ) (e : TraceEvent) : TraceEvent × ℕ :=
  -- `simtime_diff_t` is signed
  let deltatime := Int.bmod ((curtime : ℤ) - prevtime) (2 ^ 64)
  if deltatime ≠ 0 then ({ e with timeDelta := some deltatime }, curtime) else (e, prevtime)

/-- **The main loop**, for the events of a stream. -/
def record (w : ℕ) (plugin : TracingPlugin) : ℕ → List SimEvent → List TraceEvent
  | _, [] => []
  | prevtime, ev :: stream =>
    match plugin.message w ev with
    | none => record w plugin prevtime stream
    | some e => (stamp prevtime ev.time e).1 :: record w plugin (stamp prevtime ev.time e).2 stream

/-- **`run()`**, started when the experiment is stopped at the instruction at `ip`. -/
def run (w : ℕ) (plugin : TracingPlugin) (time ip : ℕ) (stream : List SimEvent) : List TraceEvent :=
  plugin.record w 0 (if plugin.traceIp then .breakpoint time ip :: stream else stream)

/-- Every instruction is recorded. -/
structure TracesInstructions (plugin : TracingPlugin) : Prop where
  traceIp : plugin.traceIp = true
  ipMap : plugin.ipMap = none

/-! ## Messages -/

theorem stamp_fields (prevtime curtime : ℕ) (e : TraceEvent) :
    (stamp prevtime curtime e).1.ip = e.ip ∧ (stamp prevtime curtime e).1.memaddr = e.memaddr ∧
      (stamp prevtime curtime e).1.width = e.width ∧ (stamp prevtime curtime e).1.accesstype = e.accesstype := by
  rw [stamp]
  by_cases hdelta : Int.bmod ((curtime : ℤ) - prevtime) (2 ^ 64) ≠ 0
  · rw [if_pos hdelta]
    exact ⟨rfl, rfl, rfl, rfl⟩
  · rw [if_neg hdelta]
    exact ⟨rfl, rfl, rfl, rfl⟩

variable {w : ℕ} {plugin : TracingPlugin}

theorem message_breakpoint (h : plugin.TracesInstructions) (w time ip : ℕ) :
    plugin.message w (.breakpoint time ip) = some { ip } := by
  simp [message, h.traceIp, h.ipMap]

/-- A recorded access keeps its address, and its width unless it is too large for the message. -/
theorem message_memoryAccess {time ip addr width : ℕ} {type : AccessType} {e : TraceEvent}
    (h : plugin.message w (.memoryAccess time ip addr width type) = some e) :
    e = { ip, memaddr := some addr, width := some (width % 2 ^ 32), accesstype := some type } := by
  rw [message] at h
  split at h
  · exact (Option.some.inj h).symm
  · cases h

end TracingPlugin

end FailStar
