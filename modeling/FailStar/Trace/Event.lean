import Mathlib.Tactic

/-! # Trace events

The messages a trace file consists of, as `TracingPlugin` writes them and as the hop calculator and the
trace importer read them.

* **`TraceEvent`** — one message: an instruction fetch, or a memory access of the instruction before; with
  extended trace information, if the plugin records it. -/

namespace FailStar

/-- `Trace_Event::AccessType`. -/
inductive AccessType
  | read
  | write
  deriving DecidableEq, Repr

/-- `Trace_Event_Extended::Registers`: the contents of a register, and of the memory it points to. -/
structure ExtendedRegister where
  id : ℕ
  value : Option ℕ := none
  valueDeref : Option ℕ := none
  deriving DecidableEq, Repr

/-- `Trace_Event_Extended`: the data that is read or written, and register contents. -/
structure TraceEventExtended where
  data : Option ℕ := none
  registers : List ExtendedRegister := []
  deriving DecidableEq, Repr

/-- `Trace_Event`: a message of the trace file. An event with a `memaddr` is a memory access, any other
one the fetch of an instruction. -/
structure TraceEvent where
  /-- `ip`. -/
  ip : ℕ
  /-- `time_delta`, the time since the previous event. -/
  timeDelta : Option ℤ := none
  /-- `memaddr`. -/
  memaddr : Option ℕ := none
  /-- `width`, in bytes. -/
  width : Option ℕ := none
  /-- `accesstype`. -/
  accesstype : Option AccessType := none
  /-- `trace_ext`. -/
  traceExt : Option TraceEventExtended := none
  deriving DecidableEq, Repr

namespace TraceEvent

/-- `has_memaddr()`. -/
def hasMemaddr (ev : TraceEvent) : Bool := ev.memaddr.isSome

/-- `memaddr()`: an absent field reads as zero. -/
def getMemaddr (ev : TraceEvent) : ℕ := ev.memaddr.getD 0

/-- `width()`: an absent field reads as zero. -/
def getWidth (ev : TraceEvent) : ℕ := ev.width.getD 0

/-- `accesstype()`: an absent field reads as the first value of the enumeration. -/
def getAccesstype (ev : TraceEvent) : AccessType := ev.accesstype.getD .read

end TraceEvent

end FailStar
