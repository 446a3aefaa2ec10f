import FailStar.ConvertTrace.Gem5Converter

/-! # Dumps of traces

`dump-trace` prints a trace as text, one line for each event, with the time that has passed since the start.
`DumpConverter` reads these lines and makes a trace of them again, with the time since the line before.

* **`DumpTrace.dump`** — the text of a trace.
* **`DumpConverter.convert`** — the trace of a text.
* **`DumpConverter.parseLine_dumpLine`** — what is read from the line of an event.
* **`DumpConverter.convert_dump`** — the trace that a dump becomes.
* **`DumpConverter.dump_is_lossless`** — a trace survives, if only memory accesses have a width and an access
  type. A line about an instruction has no room for them (`width_of_fetch_is_dropped`). -/

namespace FailStar

open Gem5Converter (timeDelta total)

/-! ## Dumping -/

namespace DumpTrace

/-- `acctime += ev.time_delta()`, in 64 bits. -/
def accumulate (acctime : ℕ) (ev : TraceEvent) : ℕ :=
  ev.timeDelta.elim acctime fun delta => ((acctime + delta) % 2 ^ 64).toNat

/-- The end of a line: the instruction pointer and the time. -/
def dumpTail (ip acctime : ℕ) : List Char := numeral 16 ip ++ ' ' :: (['t', '='] ++ numeral 10 acctime)

/-- The letter of an access type. -/
def accessLetter : AccessType → Char
  | .read => 'R'
  | .write => 'W'

/-- **The line of an event.** `ext` is the text of extended trace information, which is printed if it is wanted
and available. -/
def dumpLine (ext : TraceEventExtended → List Char) (acctime : ℕ) (ev : TraceEvent) : List Char :=
  if ev.hasMemaddr then
    ['M', 'E', 'M'] ++ ' ' :: ([accessLetter ev.getAccesstype] ++ ' ' :: (numeral 16 ev.getMemaddr ++ ' ' ::
      (['w', 'i', 'd', 't', 'h'] ++ ' ' :: (numeral 10 ev.getWidth ++ ' ' :: (['I', 'P'] ++ ' ' ::
        dumpTail ev.ip acctime))))) ++ ev.traceExt.elim [] ext
  else ['I', 'P'] ++ ' ' :: dumpTail ev.ip acctime

/-- The loop, from some accumulated time on. -/
def dumpFrom (ext : TraceEventExtended → List Char) : ℕ → List TraceEvent → List Char
  | _, [] => []
  | acctime, ev :: evs =>
    dumpLine ext (accumulate acctime ev) ev ++ '\n' :: dumpFrom ext (accumulate acctime ev) evs

/-- **The dump of a trace.** -/
def dump (ext : TraceEventExtended → List Char) (events : List TraceEvent) : List Char := dumpFrom ext 0 events

end DumpTrace

/-! ## Converting -/

namespace DumpConverter

/-- What becomes of a line: an assertion fails, the line is skipped, or it is an event at some time. -/
inductive Outcome
  | aborted
  | mismatch
  | parsed (ev : TraceEvent) (cycle : ℤ)
  deriving DecidableEq, Repr

/-- The end of a line: the instruction pointer, and a word with the time. -/
def parseTail (ev : TraceEvent) (ss : InputStream Char) : Outcome :=
  let (instrAddress, ss) := ss.extractUnsigned 16 64
  let (dummy, ss) := ss.extractWord 1024
  let dummy := dummy.getD []
  if ss.fail ∨ ¬['t', '='] <+: dummy then .mismatch
  else
    let (cycle, ss) := InputStream.extractSigned 10 64 { content := dummy.drop 2 }
    if ss.fail then .mismatch else .parsed { ev with ip := instrAddress.getD 0 } (cycle.getD 0)

/-- A line, up to the time. If `assertions` are compiled in, the type of the event is checked. -/
def parseLine (assertions : Bool) (buf : List Char) : Outcome :=
  let ss : InputStream Char := { content := cString buf }
  let (evType, ss) := ss.extractString
  let evType := evType.getD []
  if evType = ['M', 'E', 'M'] then
    let (accesstype, ss) := ss.extractString
    let (dataAddress, ss) := ss.extractUnsigned 16 64
    let (_, ss) := ss.extractWord 1024
    let (dataWidth, ss) := ss.extractUnsigned 10 32
    let (evType', ss) := ss.extractString
    if ss.fail then .mismatch
    else if assertions ∧ evType'.getD evType ≠ ['I', 'P'] then .aborted
    else
      parseTail
        { ip := 0, memaddr := some (dataAddress.getD 0), width := some (dataWidth.getD 0),
          accesstype := some (if accesstype.getD [] = ['R'] then .read else .write) } ss
  else if assertions ∧ evType ≠ ['I', 'P'] then .aborted
  else parseTail { ip := 0 } ss

/-- One iteration: `prev_cycle`, and the events that have been written. -/
def step (assertions : Bool) (st : ℤ × List TraceEvent) (buf : List Char) : Option (ℤ × List TraceEvent) :=
  match parseLine assertions buf with
  | .aborted => none
  | .mismatch => some st
  | .parsed ev cycle => some (cycle, st.2 ++ [{ ev with timeDelta := timeDelta st.1 cycle }])

/-- **`convert`**: the trace of a text. -/
def convert (assertions : Bool) (file : List Char) : Option (List TraceEvent) :=
  ((boundedLines 2048 file).foldlM (step assertions) (0, [])).map Prod.snd

/-! ## Reading a line -/

open DumpTrace InputStream

/-- The fields of an event are in the range of their types. -/
structure Typed (ev : TraceEvent) : Prop where
  ip : ev.ip < 2 ^ 64
  memaddr : ev.getMemaddr < 2 ^ 64
  width : ev.getWidth < 2 ^ 32

variable {ev : TraceEvent} {rest word : List Char} {n : ℕ} {ext : TraceEventExtended → List Char}

theorem isSpace_head_blank (rest : List Char) : ∀ c ∈ (' ' :: rest).head?, isSpace c = true := by
  intro c hc
  rw [← Option.some.inj hc]
  decide

theorem isSpace_blank : ∀ c ∈ [' '], isSpace c = true := List.forall_mem_singleton.mpr (by decide)

theorem isSpace_of_any (h : word.any isSpace = false) : ∀ c ∈ word, isSpace c = false := by
  simpa using h

theorem extractString_first (hne : word ≠ []) (hword : ∀ c ∈ word, isSpace c = false) :
    extractString { content := word ++ ' ' :: rest } = (some word, { content := ' ' :: rest }) :=
  extractString_append (List.forall_mem_nil _) hne hword (isSpace_head_blank rest)

theorem extractString_blank (hne : word ≠ []) (hword : ∀ c ∈ word, isSpace c = false) :
    extractString { content := ' ' :: (word ++ ' ' :: rest) } = (some word, { content := ' ' :: rest }) :=
  extractString_append isSpace_blank hne hword (isSpace_head_blank rest)

theorem extractWord_blank (hne : word ≠ []) (hword : ∀ c ∈ word, isSpace c = false)
    (hlt : word.length + 1 < 1024) :
    extractWord 1024 { content := ' ' :: (word ++ ' ' :: rest) } = (some word, { content := ' ' :: rest }) :=
  extractWord_append_of_lt isSpace_blank hne hword (isSpace_head_blank rest) hlt

theorem extractUnsigned_blank {b bits : ℕ} (hb : 1 < b) (hb' : b ≤ 16) (hn : n < 2 ^ bits) :
    extractUnsigned b bits { content := ' ' :: (numeral b n ++ ' ' :: rest) } =
      (some n, { content := ' ' :: rest }) :=
  extractUnsigned_of_lt hb hb' hn isSpace_blank (by decide)

theorem length_numeral_le {b k : ℕ} (hb : 1 < b) (hk : 0 < k) (hn : n < b ^ k) : (numeral b n).length ≤ k := by
  rw [numeral]
  split
  · exact hk
  · rw [List.length_reverse, List.length_map]
    exact (Nat.digits_length_le_iff hb n).mpr hn

/-- **The end of a line.** -/
theorem parseTail_dumpTail {ip acctime : ℕ} (hip : ip < 2 ^ 64) (htime : acctime < 2 ^ 63) (ev : TraceEvent) :
    parseTail ev { content := ' ' :: dumpTail ip acctime } = .parsed { ev with ip } acctime := by
  have hword : ∀ c ∈ ['t', '='] ++ numeral 10 acctime, isSpace c = false := by
    refine List.forall_mem_append.mpr ⟨isSpace_of_any rfl, fun c hc => ?_⟩
    exact isSpace_of_numeral (by decide) (by decide) hc
  have hlength : (['t', '='] ++ numeral 10 acctime).length + 1 < 1024 := by
    have hnumeral := length_numeral_le (b := 10) (k := 19) (n := acctime) (by decide) (by decide) (by omega)
    rw [List.length_append]
    exact lt_of_le_of_lt (Nat.add_le_add_right (Nat.add_le_add_left hnumeral _) 1) (by decide)
  have hdummy : extractWord 1024 { content := ' ' :: (['t', '='] ++ numeral 10 acctime) } =
      (some (['t', '='] ++ numeral 10 acctime), { content := [], eof := true }) := by
    have hend : ∀ c ∈ ([] : List Char).head?, isSpace c = true := by simp
    have hextract := extractWord_append_of_lt isSpace_blank (by simp) hword hend hlength
    rwa [List.append_nil] at hextract
  have hdrop : (['t', '='] ++ numeral 10 acctime).drop 2 = numeral 10 acctime := rfl
  rw [parseTail, dumpTail, extractUnsigned_blank (by decide) (by decide) hip]
  dsimp only
  rw [hdummy]
  dsimp only
  rw [Option.getD_some, if_neg (by simp), hdrop, extractSigned_end htime]
  rfl

theorem cString_of_ne {buf : List Char} (h : ∀ c ∈ buf, c ≠ '\x00') : cString buf = buf :=
  List.takeWhile_eq_self_iff.mpr fun c hc => decide_eq_true (h c hc)

theorem numeral_ne_control {b : ℕ} (hb : 1 < b) (hb' : b ≤ 16) {c : Char} (hc : c ∈ numeral b n) :
    c ≠ '\x00' ∧ c ≠ '\n' := by
  have hdigit := isDigit_of_numeral hb hb' hc
  have hnone : ∀ d, digitValue d = none → c ≠ d := by
    rintro d hd rfl
    rw [isDigit, hd] at hdigit
    cases hdigit
  exact ⟨hnone _ (by decide), hnone _ (by decide)⟩

theorem dumpLine_access (hmem : ev.hasMemaddr = true) (hext : ev.traceExt = none) (acctime : ℕ) :
    dumpLine ext acctime ev =
      ['M', 'E', 'M'] ++ ' ' :: ([accessLetter ev.getAccesstype] ++ ' ' :: (numeral 16 ev.getMemaddr ++ ' ' ::
        (['w', 'i', 'd', 't', 'h'] ++ ' ' :: (numeral 10 ev.getWidth ++ ' ' :: (['I', 'P'] ++ ' ' ::
          dumpTail ev.ip acctime))))) := by
  rw [dumpLine, if_pos hmem, hext, Option.elim_none, List.append_nil]

theorem dumpLine_fetch (hmem : ev.hasMemaddr = false) (acctime : ℕ) :
    dumpLine ext acctime ev = ['I', 'P'] ++ ' ' :: dumpTail ev.ip acctime := by
  rw [dumpLine, if_neg (by simp [hmem])]

theorem ne_control_word {word rest : List Char} (hword : ∀ c ∈ word, c ≠ '\x00' ∧ c ≠ '\n')
    (hrest : ∀ c ∈ rest, c ≠ '\x00' ∧ c ≠ '\n') : ∀ c ∈ word ++ ' ' :: rest, c ≠ '\x00' ∧ c ≠ '\n' :=
  List.forall_mem_append.mpr ⟨hword, List.forall_mem_cons.mpr ⟨by decide, hrest⟩⟩

theorem dumpLine_plain (ext : TraceEventExtended → List Char) (h : Typed ev) (hext : ev.traceExt = none)
    {acctime : ℕ} (htime : acctime < 2 ^ 63) :
    (∀ c ∈ dumpLine ext acctime ev, c ≠ '\x00' ∧ c ≠ '\n') ∧ (dumpLine ext acctime ev).length < 2048 := by
  have hnumeral : ∀ b n, 1 < b → b ≤ 16 → ∀ c ∈ numeral b n, c ≠ '\x00' ∧ c ≠ '\n' :=
    fun b n hb hb' c hc => numeral_ne_control hb hb' hc
  have htail : ∀ c ∈ dumpTail ev.ip acctime, c ≠ '\x00' ∧ c ≠ '\n' := by
    refine ne_control_word (hnumeral 16 _ (by decide) (by decide)) (List.forall_mem_append.mpr ⟨by simp, ?_⟩)
    exact hnumeral 10 _ (by decide) (by decide)
  have hip := length_numeral_le (b := 16) (k := 16) (n := ev.ip) (by decide) (by decide) h.ip
  have hacctime := length_numeral_le (b := 10) (k := 19) (n := acctime) (by decide) (by decide) (by omega)
  cases hmem : ev.hasMemaddr with
  | true =>
    have hletter : ∀ c ∈ [accessLetter ev.getAccesstype], c ≠ '\x00' ∧ c ≠ '\n' := by
      cases ev.getAccesstype with
      | read => simp [accessLetter]
      | write => simp [accessLetter]
    have haddr := length_numeral_le (b := 16) (k := 16) (n := ev.getMemaddr) (by decide) (by decide) h.memaddr
    have hwidth := length_numeral_le (b := 10) (k := 10) (n := ev.getWidth) (by decide) (by decide)
      (h.width.trans (by decide))
    rw [dumpLine_access hmem hext]
    constructor
    · refine ne_control_word (by simp) (ne_control_word hletter ?_)
      refine ne_control_word (hnumeral 16 _ (by decide) (by decide)) (ne_control_word (by simp) ?_)
      exact ne_control_word (hnumeral 10 _ (by decide) (by decide)) (ne_control_word (by simp) htail)
    · simp only [dumpTail, List.length_append, List.length_cons, List.length_nil]
      omega
  | false =>
    rw [dumpLine_fetch hmem]
    constructor
    · exact ne_control_word (by simp) htail
    · simp only [dumpTail, List.length_append, List.length_cons, List.length_nil]
      omega

/-- What a line tells about an event. -/
def readEvent (ev : TraceEvent) : TraceEvent :=
  if ev.hasMemaddr then
    { ip := ev.ip, memaddr := some ev.getMemaddr, width := some ev.getWidth,
      accesstype := some ev.getAccesstype }
  else { ip := ev.ip }

/-- **Reading the line of an event.** -/
theorem parseLine_dumpLine (assertions : Bool) (h : Typed ev) (hext : ev.traceExt = none) {acctime : ℕ}
    (htime : acctime < 2 ^ 63) :
    parseLine assertions (dumpLine ext acctime ev) = .parsed (readEvent ev) acctime := by
  rw [parseLine, cString_of_ne fun c hc => ((dumpLine_plain ext h hext htime).1 c hc).1]
  cases hmem : ev.hasMemaddr with
  | true =>
    have hletter : ∀ c ∈ [accessLetter ev.getAccesstype], isSpace c = false := by
      cases ev.getAccesstype with
      | read => exact isSpace_of_any rfl
      | write => exact isSpace_of_any rfl
    have htype : (if [accessLetter ev.getAccesstype] = ['R'] then AccessType.read else .write) =
        ev.getAccesstype := by
      cases ev.getAccesstype with
      | read => rfl
      | write => rfl
    -- one word after the other
    rw [dumpLine_access hmem hext, extractString_first (by simp) (isSpace_of_any rfl)]
    dsimp only
    rw [Option.getD_some, if_pos rfl, extractString_blank (by simp) hletter]
    dsimp only
    rw [extractUnsigned_blank (by decide) (by decide) h.memaddr]
    dsimp only
    rw [extractWord_blank (by simp) (isSpace_of_any rfl) (by decide)]
    dsimp only
    rw [extractUnsigned_blank (by decide) (by decide) h.width]
    dsimp only
    rw [extractString_blank (by simp) (isSpace_of_any rfl)]
    dsimp only
    rw [if_neg Bool.false_ne_true, Option.getD_some, if_neg (by simp), parseTail_dumpTail h.ip htime]
    simp only [Option.getD_some, htype]
    rw [readEvent, if_pos hmem]
  | false =>
    rw [dumpLine_fetch hmem, extractString_first (by simp) (isSpace_of_any rfl)]
    dsimp only
    rw [Option.getD_some, if_neg (by decide), if_neg (by simp), parseTail_dumpTail h.ip htime, readEvent,
      if_neg (by simp [hmem])]

/-! ## The trace of a dump -/

/-- The events of a dump, from some accumulated time on. -/
def reconverted : ℕ → List TraceEvent → List TraceEvent
  | _, [] => []
  | acctime, ev :: evs =>
    { readEvent ev with timeDelta := timeDelta acctime (accumulate acctime ev) } :: reconverted
      (accumulate acctime ev) evs

/-- **Traces that can be dumped**: without extended information, with times that do not decrease, and less than
`2 ^ 63` in total. -/
structure Dumpable (evs : List TraceEvent) : Prop where
  typed : ∀ ev ∈ evs, Typed ev
  extended : ∀ ev ∈ evs, ev.traceExt = none
  delta : ∀ ev ∈ evs, 0 ≤ ev.timeDelta.getD 0
  time : total evs < 2 ^ 63

theorem total_cons (ev : TraceEvent) (evs : List TraceEvent) :
    total (ev :: evs) = ev.timeDelta.getD 0 + total evs := rfl

theorem total_nonneg {evs : List TraceEvent} (h : ∀ ev ∈ evs, 0 ≤ ev.timeDelta.getD 0) : 0 ≤ total evs :=
  List.sum_nonneg (List.forall_mem_map.mpr h)

theorem accumulate_eq {acctime : ℕ} (hdelta : 0 ≤ ev.timeDelta.getD 0)
    (htime : (acctime : ℤ) + ev.timeDelta.getD 0 < 2 ^ 63) :
    (accumulate acctime ev : ℤ) = acctime + ev.timeDelta.getD 0 := by
  rw [accumulate]
  cases hev : ev.timeDelta with
  | none => simp
  | some delta =>
    rw [hev, Option.getD_some] at hdelta htime
    rw [Option.elim_some, Option.getD_some]
    omega

theorem foldlM_dumpFrom (assertions : Bool) (ext : TraceEventExtended → List Char) {evs : List TraceEvent}
    (htyped : ∀ ev ∈ evs, Typed ev) (hext : ∀ ev ∈ evs, ev.traceExt = none)
    (hdelta : ∀ ev ∈ evs, 0 ≤ ev.timeDelta.getD 0) {acctime : ℕ} (htime : (acctime : ℤ) + total evs < 2 ^ 63)
    (out : List TraceEvent) :
    ∃ last, (boundedLines 2048 (dumpFrom ext acctime evs)).foldlM (step assertions) ((acctime : ℤ), out) =
      some (last, out ++ reconverted acctime evs) := by
  induction evs generalizing acctime out with
  | nil => exact ⟨acctime, by rw [reconverted, List.append_nil]; rfl⟩
  | cons ev evs ih =>
    obtain ⟨htyped, htypeds⟩ := List.forall_mem_cons.mp htyped
    obtain ⟨hext, hexts⟩ := List.forall_mem_cons.mp hext
    obtain ⟨hdelta, hdeltas⟩ := List.forall_mem_cons.mp hdelta
    have hrest := total_nonneg hdeltas
    rw [total_cons] at htime
    -- the accumulated time fits, so it is what is printed and read
    have hacc := accumulate_eq hdelta (show (acctime : ℤ) + ev.timeDelta.getD 0 < 2 ^ 63 by omega)
    have hbound : accumulate acctime ev < 2 ^ 63 := by omega
    obtain ⟨hchars, hlength⟩ := dumpLine_plain ext htyped hext hbound
    have hlines : boundedLines 2048 (dumpFrom ext acctime (ev :: evs)) =
        dumpLine ext (accumulate acctime ev) ev :: boundedLines 2048
          (dumpFrom ext (accumulate acctime ev) evs) := by
      rw [dumpFrom, boundedLines_append_newline (fun c hc => (hchars c hc).2) hlength]
    have hstep : step assertions ((acctime : ℤ), out) (dumpLine ext (accumulate acctime ev) ev) =
        some ((accumulate acctime ev : ℤ),
          out ++ [{ readEvent ev with timeDelta := timeDelta acctime (accumulate acctime ev) }]) := by
      rw [step, parseLine_dumpLine assertions htyped hext hbound]
    obtain ⟨last, hlast⟩ := ih htypeds hexts hdeltas
      (show ((accumulate acctime ev : ℕ) : ℤ) + total evs < 2 ^ 63 by omega)
      (out ++ [{ readEvent ev with timeDelta := timeDelta acctime (accumulate acctime ev) }])
    refine ⟨last, ?_⟩
    rw [hlines, List.foldlM_cons, hstep, Option.bind_eq_bind, Option.bind_some, hlast, reconverted,
      List.append_assoc]
    rfl

/-- **The trace that a dump becomes.** -/
theorem convert_dump (assertions : Bool) {evs : List TraceEvent} (h : Dumpable evs) :
    convert assertions (dump ext evs) = some (reconverted 0 evs) := by
  have htime : ((0 : ℕ) : ℤ) + total evs < 2 ^ 63 := by simpa using h.time
  obtain ⟨last, hlast⟩ := foldlM_dumpFrom assertions ext h.typed h.extended h.delta htime []
  rw [convert, dump]
  exact congrArg (Option.map Prod.snd) hlast

/-- Two events with the same content: an absent width or access type reads as its default. -/
structure SameEvent (ev out : TraceEvent) : Prop where
  ip : out.ip = ev.ip
  memaddr : out.memaddr = ev.memaddr
  width : out.getWidth = ev.getWidth
  accesstype : out.getAccesstype = ev.getAccesstype

/-- Only a memory access has a width and an access type. -/
def Plain (ev : TraceEvent) : Prop := ev.memaddr = none → ev.width = none ∧ ev.accesstype = none

theorem sameEvent_readEvent (h : Plain ev) (delta : Option ℤ) :
    SameEvent ev { readEvent ev with timeDelta := delta } := by
  cases hmem : ev.memaddr with
  | none =>
    obtain ⟨hwidth, htype⟩ := h hmem
    have hread : readEvent ev = { ip := ev.ip } := by
      rw [readEvent, TraceEvent.hasMemaddr, hmem]
      rfl
    rw [hread]
    refine ⟨rfl, hmem.symm, ?_, ?_⟩
    · rw [TraceEvent.getWidth, TraceEvent.getWidth, hwidth]
    · rw [TraceEvent.getAccesstype, TraceEvent.getAccesstype, htype]
  | some addr =>
    have hread : readEvent ev = { ip := ev.ip, memaddr := some addr, width := some ev.getWidth,
                                  accesstype := some ev.getAccesstype } := by
      rw [readEvent, TraceEvent.hasMemaddr, TraceEvent.getMemaddr, hmem]
      rfl
    rw [hread]
    exact ⟨rfl, hmem.symm, rfl, rfl⟩

theorem forall₂_reconverted {evs : List TraceEvent} (h : ∀ ev ∈ evs, Plain ev) (acctime : ℕ) :
    List.Forall₂ SameEvent evs (reconverted acctime evs) := by
  induction evs generalizing acctime with
  | nil => exact .nil
  | cons ev evs ih =>
    obtain ⟨hev, hevs⟩ := List.forall_mem_cons.mp h
    exact .cons (sameEvent_readEvent hev _) (ih hevs _)

/-- The time that has passed at every event. -/
theorem total_take_reconverted {evs : List TraceEvent} (hdelta : ∀ ev ∈ evs, 0 ≤ ev.timeDelta.getD 0)
    {acctime : ℕ} (htime : (acctime : ℤ) + total evs < 2 ^ 63) (n : ℕ) :
    total ((reconverted acctime evs).take n) = total (evs.take n) := by
  induction evs generalizing acctime n with
  | nil => rfl
  | cons ev evs ih =>
    cases n with
    | zero => rfl
    | succ n =>
      obtain ⟨hdelta, hdeltas⟩ := List.forall_mem_cons.mp hdelta
      have hrest := total_nonneg hdeltas
      rw [total_cons] at htime
      have hacc := accumulate_eq hdelta (show (acctime : ℤ) + ev.timeDelta.getD 0 < 2 ^ 63 by omega)
      have hfirst : (timeDelta acctime (accumulate acctime ev)).getD 0 = ev.timeDelta.getD 0 := by
        rw [timeDelta, hacc]
        split
        · rw [Option.getD_some]
          omega
        · rw [Option.getD_none]
          omega
      rw [reconverted, List.take_succ_cons, List.take_succ_cons, total_cons, total_cons,
        ih hdeltas (show ((accumulate acctime ev : ℕ) : ℤ) + total evs < 2 ^ 63 by omega), hfirst]

/-- **Dumping and converting a trace is lossless**: every trace that can be dumped, and in which only memory
accesses have a width and an access type, becomes a trace with the same events, which are at the same times. -/
theorem dump_is_lossless (assertions : Bool) (ext : TraceEventExtended → List Char) (evs : List TraceEvent)
    (h : Dumpable evs) (hplain : ∀ ev ∈ evs, Plain ev) :
    ∃ out, convert assertions (dump ext evs) = some out ∧ List.Forall₂ SameEvent evs out ∧
      ∀ n, total (out.take n) = total (evs.take n) := by
  have htime : ((0 : ℕ) : ℤ) + total evs < 2 ^ 63 := by simpa using h.time
  exact ⟨reconverted 0 evs, convert_dump assertions h, forall₂_reconverted hplain 0,
    total_take_reconverted h.delta htime⟩

/-- A fetch, and a read one tick later. -/
def shortTrace : List TraceEvent :=
  [{ ip := 0x1035c9, timeDelta := some 5 },
   { ip := 0x1035c9, timeDelta := some 1, memaddr := some 0x123abc, width := some 4, accesstype := some .read }]

theorem dump_is_lossless_shortTrace :
    ∃ out, convert true (dump (fun _ => []) shortTrace) = some out ∧ List.Forall₂ SameEvent shortTrace out ∧
      ∀ n, total (out.take n) = total (shortTrace.take n) := by
  refine dump_is_lossless true (fun _ => []) shortTrace ⟨?_, by decide, by decide, by decide⟩ ?_
  · exact List.forall_mem_cons.mpr ⟨⟨by decide, by decide, by decide⟩,
      List.forall_mem_singleton.mpr ⟨by decide, by decide, by decide⟩⟩
  · exact List.forall_mem_cons.mpr ⟨fun _ => ⟨rfl, rfl⟩, List.forall_mem_singleton.mpr fun h => by cases h⟩

/-- The width of an event that is no memory access is not dumped. -/
theorem width_of_fetch_is_dropped :
    let evs : List TraceEvent := [{ ip := 16, width := some 4 }]
    Dumpable evs ∧ convert true (dump (fun _ => []) evs) = some [{ ip := 16 }] ∧
      ¬SameEvent { ip := 16, width := some 4 } { ip := 16 } := by
  intro evs
  have hdumpable : Dumpable evs :=
    ⟨List.forall_mem_singleton.mpr ⟨by decide, by decide, by decide⟩, by decide, by decide, by decide⟩
  refine ⟨hdumpable, convert_dump true hdumpable, fun h => ?_⟩
  exact absurd h.width (by decide)

end DumpConverter

end FailStar
