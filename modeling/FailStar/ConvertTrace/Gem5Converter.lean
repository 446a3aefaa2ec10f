import FailStar.Foundations.TextExtraction
import FailStar.Trace.Event

/-! # The converter of gem5 logs

`Gem5Converter` makes a trace of the lines that gem5 logs for accesses to its physical memory. An event carries
the time since the line before it. This time is computed, and the line remembered, before it is known whether the
line becomes an event. Accesses before the first instruction fetch and lines of hex dumps do not.

* **`Gem5Converter.classify`** — a line of the log; **`Gem5Converter.step`** — what the loop does with it.
* **`Gem5Converter.events`** — the trace of some lines.
* **`Gem5Converter.lost`** — the time that is missing in the trace. It goes to the lines that do not become
  events (`lost_spec`).
* **`Gem5Converter.keepsTime_iff`** — every event is at the time of its line exactly if no line that is skipped
  before it advances the time. -/

namespace FailStar.Gem5Converter

/-! ## Lines -/

/-- What is read of a line about an access. -/
structure Access where
  cycle : ℤ
  accessType : List Char
  accessWidth : ℕ
  accessAddress : ℕ
  deriving DecidableEq, Repr

/-- The extraction from a line, which fails if the stream does. -/
def parse (buf : List Char) : Option Access :=
  let ss : InputStream Char := { content := buf }
  let (cycle, ss) := ss.extractSigned 10 64
  let (_, ss) := ss.extractWord 2048
  let (_, ss) := ss.extractWord 2048
  let (accessType, ss) := ss.extractString
  let (_, ss) := ss.extractWord 2048
  let (_, ss) := ss.extractWord 2048
  let (accessWidth, ss) := ss.extractUnsigned 10 32
  let (_, ss) := ss.extractWord 2048
  let (_, ss) := ss.extractWord 2048
  let (accessAddress, ss) := ss.extractUnsigned 16 64
  if ss.fail then none
  else
    some { cycle := cycle.getD 0, accessType := accessType.getD [], accessWidth := accessWidth.getD 0,
           accessAddress := accessAddress.getD 0 }

/-- A line: the banner of gem5, a line of no interest or with another format, or an access. -/
inductive Line
  | banner
  | ignored
  | parsed (access : Access)
  deriving DecidableEq, Repr

/-- `"http://gem5.org"`. -/
def bannerText : List Char := ['h', 't', 't', 'p', ':', '/', '/', 'g', 'e', 'm', '5', '.', 'o', 'r', 'g']

/-- `"system.physmem"`. -/
def physmemText : List Char := ['s', 'y', 's', 't', 'e', 'm', '.', 'p', 'h', 'y', 's', 'm', 'e', 'm']

/-- `"access wrote"`. -/
def accessWroteText : List Char := ['a', 'c', 'c', 'e', 's', 's', ' ', 'w', 'r', 'o', 't', 'e']

/-- The tests in front of the loop body, and the extraction. -/
def classify (buf : List Char) : Line :=
  let buf := cString buf
  if bannerText <:+: buf then .banner
  else if ¬physmemText <:+: buf ∨ accessWroteText <:+: buf then .ignored
  else (parse buf).elim .ignored .parsed

/-! ## The loop -/

/-- The variables of the loop. -/
structure State where
  prevCycle : ℤ := 0
  curIp : ℕ := 0
  ifetchSeen : Bool := false
  deriving DecidableEq, Repr

/-- `access_type == "IFetch"`. -/
def Access.isIFetch (a : Access) : Bool := decide (a.accessType = ['I', 'F', 'e', 't', 'c', 'h'])

/-- The access type of a read or a write. -/
def Access.accesstype? (a : Access) : Option AccessType :=
  if a.accessType = ['R', 'e', 'a', 'd'] then some .read
  else if a.accessType = ['W', 'r', 'i', 't', 'e'] then some .write
  else none

/-- The time delta that is set in the event, if any. -/
def timeDelta (prevCycle cycle : ℤ) : Option ℤ :=
  if 0 < cycle - prevCycle then some (cycle - prevCycle) else none

/-- One iteration: the variables behind it, and the event that is written. -/
def step (st : State) : Line → State × Option TraceEvent
  -- in case we're getting multiple concatenated gem5 traces
  | .banner => ({ st with ifetchSeen := false }, none)
  | .ignored => (st, none)
  | .parsed a =>
    let delta := timeDelta st.prevCycle a.cycle
    -- also behind a time discontinuity
    let st := { st with prevCycle := a.cycle }
    if a.isIFetch then
      ({ st with ifetchSeen := true, curIp := a.accessAddress },
        some { ip := a.accessAddress, timeDelta := delta })
    else
      match a.accesstype? with
      | none => (st, none)
      | some accesstype =>
        -- skip all accesses before the first ifetch
        if st.ifetchSeen = false then (st, none)
        else
          (st, some
            { ip := st.curIp, timeDelta := delta, memaddr := some a.accessAddress, width := some a.accessWidth,
                      accesstype := some accesstype })

/-- The variables behind some lines. -/
def stateAfter (lines : List Line) : State := lines.foldl (fun st line => (step st line).1) {}

/-- **The events of some lines.** -/
def events (lines : List Line) : List TraceEvent :=
  (lines.foldl (fun (r : State × List TraceEvent) line =>
    ((step r.1 line).1, r.2 ++ (step r.1 line).2.toList)) ({}, [])).2

/-- The lines of a log, as the loop sees them. -/
def logLines (file : List Char) : List Line := (boundedLines 2048 file).map classify

/-- **`convert`**: the trace of a log. -/
def convert (file : List Char) : List TraceEvent := events (logLines file)

/-! ## Times -/

/-- The time deltas of some events, in total. -/
def total (evs : List TraceEvent) : ℤ := (evs.map fun ev => ev.timeDelta.getD 0).sum

/-- The cycle of a line about an access. -/
def Line.cycle? : Line → Option ℤ
  | .parsed a => some a.cycle
  | _ => none

/-- The cycle of the last line about an access, or 0. -/
def lastCycle (lines : List Line) : ℤ := (lines.filterMap Line.cycle?).getLast?.getD 0

/-- An instruction was fetched since the last banner. -/
def fetchSeen : List Line → Bool
  | lines => lines.foldl (fun seen line => match line with
    | .banner => false
    | .ignored => seen
    | .parsed a => seen || a.isIFetch) false

/-- The line becomes an event. -/
def Written (before : List Line) (a : Access) : Prop :=
  a.isIFetch = true ∨ fetchSeen before = true ∧ a.accesstype?.isSome = true

instance (before : List Line) (a : Access) : Decidable (Written before a) := inferInstanceAs (Decidable (_ ∨ _))

/-- The cycles never decrease, and count from 0. -/
def NonDecreasing (lines : List Line) : Prop := (0 :: lines.filterMap Line.cycle?).IsChain (· ≤ ·)

/-- **The conversion keeps absolute time**: for every event that is written, the deltas up to this one, with
which the trace starts, add up to the cycle of its line. -/
def KeepsTime (file : List Char) : Prop :=
  ∀ before a ev, before ++ [.parsed a] <+: logLines file → (step (stateAfter before) (.parsed a)).2 = some ev →
    events before ++ [ev] <+: convert file ∧ total (events before ++ [ev]) = a.cycle

variable {lines : List Line} {before : List Line} {a : Access}

/-! ## One line more -/

theorem stateAfter_concat (lines : List Line) (line : Line) :
    stateAfter (lines ++ [line]) = (step (stateAfter lines) line).1 := List.foldl_concat ..

theorem fst_foldl_events (lines : List Line) :
    (lines.foldl (fun (r : State × List TraceEvent) line =>
      ((step r.1 line).1, r.2 ++ (step r.1 line).2.toList)) ({}, [])).1 = stateAfter lines := by
  induction lines using List.reverseRecOn with
  | nil => rfl
  | append_singleton lines line ih => rw [List.foldl_concat, stateAfter_concat, ih]

theorem events_concat (lines : List Line) (line : Line) :
    events (lines ++ [line]) = events lines ++ (step (stateAfter lines) line).2.toList := by
  rw [events, List.foldl_concat]
  dsimp only
  rw [fst_foldl_events]
  rfl

theorem lastCycle_parsed (lines : List Line) (a : Access) : lastCycle (lines ++ [.parsed a]) = a.cycle := by
  rw [lastCycle, List.filterMap_append]
  exact congrArg (fun o : Option ℤ => o.getD 0) List.getLast?_concat

theorem lastCycle_of_none {line : Line} (h : line.cycle? = none) (lines : List Line) :
    lastCycle (lines ++ [line]) = lastCycle lines := by
  rw [lastCycle, List.filterMap_append, List.filterMap_cons_none h, List.filterMap_nil, List.append_nil,
    lastCycle]

theorem fetchSeen_concat (lines : List Line) (line : Line) : fetchSeen (lines ++ [line]) =
    match line with
    | .banner => false
    | .ignored => fetchSeen lines
    | .parsed a => fetchSeen lines || a.isIFetch := List.foldl_concat ..

/-- **The variables of the loop.** -/
theorem stateAfter_spec (lines : List Line) :
    (stateAfter lines).prevCycle = lastCycle lines ∧ (stateAfter lines).ifetchSeen = fetchSeen lines := by
  induction lines using List.reverseRecOn with
  | nil => exact ⟨rfl, rfl⟩
  | append_singleton lines line ih =>
    obtain ⟨hprev, hseen⟩ := ih
    rw [stateAfter_concat, fetchSeen_concat]
    cases line with
    | banner => exact ⟨hprev.trans (lastCycle_of_none rfl lines).symm, rfl⟩
    | ignored => exact ⟨hprev.trans (lastCycle_of_none rfl lines).symm, hseen⟩
    | parsed a =>
      rw [lastCycle_parsed, step]
      dsimp only
      split
      · rename_i hfetch
        exact ⟨rfl, by rw [hfetch, Bool.or_true]⟩
      · rename_i hfetch
        have hkeep : (fetchSeen lines || a.isIFetch) = fetchSeen lines := by
          rw [Bool.not_eq_true] at hfetch
          rw [hfetch, Bool.or_false]
        rw [hkeep]
        split
        · exact ⟨rfl, hseen⟩
        · split
          · exact ⟨rfl, hseen⟩
          · exact ⟨rfl, hseen⟩

/-- **The event of a line**: whether it becomes one, and the time it carries. -/
theorem step_spec (before : List Line) (a : Access) :
    (step (stateAfter before) (.parsed a)).2.map TraceEvent.timeDelta =
      if Written before a then some (timeDelta (lastCycle before) a.cycle) else none := by
  obtain ⟨hprev, hseen⟩ := stateAfter_spec before
  rw [step, ← hprev]
  dsimp only
  by_cases hfetch : a.isIFetch = true
  · have hwritten : Written before a := Or.inl hfetch
    rw [if_pos hwritten, if_pos hfetch]
    rfl
  · rw [if_neg hfetch]
    cases htype : a.accesstype? with
    | none =>
      have hskipped : ¬Written before a := by
        rintro (h | ⟨-, h⟩)
        · exact hfetch h
        · rw [htype] at h
          cases h
      rw [if_neg hskipped]
      rfl
    | some accesstype =>
      dsimp only
      -- an access is only written behind an instruction fetch
      by_cases hfirst : (stateAfter before).ifetchSeen = false
      · have hskipped : ¬Written before a := by
          rintro (h | ⟨h, -⟩)
          · exact hfetch h
          · rw [← hseen, hfirst] at h
            cases h
        rw [if_pos hfirst, if_neg hskipped]
        rfl
      · have hwritten : Written before a :=
          Or.inr ⟨by rw [← hseen]; simpa using hfirst, by rw [htype]; rfl⟩
        rw [if_neg hfirst, if_pos hwritten]
        rfl

theorem total_append (evs evs' : List TraceEvent) : total (evs ++ evs') = total evs + total evs' := by
  rw [total, List.map_append, List.sum_append, total, total]

theorem total_concat (before : List Line) (a : Access) : total (events (before ++ [.parsed a])) =
    total (events before) + if Written before a then (timeDelta (lastCycle before) a.cycle).getD 0 else 0 := by
  have hstep := step_spec before a
  rw [events_concat, total_append]
  congr 1
  split
  · rename_i hwritten
    rw [if_pos hwritten] at hstep
    obtain ⟨ev, hev, hdelta⟩ := Option.map_eq_some_iff.mp hstep
    rw [hev, ← hdelta]
    exact add_zero _
  · rename_i hskipped
    rw [if_neg hskipped] at hstep
    rw [Option.map_eq_none_iff.mp hstep]
    rfl

theorem events_of_none {line : Line} (h : line.cycle? = none) (lines : List Line) :
    events (lines ++ [line]) = events lines := by
  rw [events_concat]
  cases line with
  | banner => exact List.append_nil _
  | ignored => exact List.append_nil _
  | parsed a => cases h

theorem events_prefix (h : before <+: lines) : events before <+: events lines := by
  obtain ⟨rest, rfl⟩ := h
  induction rest using List.reverseRecOn with
  | nil => rw [List.append_nil]
  | append_singleton rest line ih =>
    rw [← List.append_assoc, events_concat]
    exact ih.trans (List.prefix_append _ _)

/-! ## Lost time -/

/-- The time that is missing in the trace. -/
def lost (lines : List Line) : ℤ := lastCycle lines - total (events lines)

/-- **No line that is skipped advances the time.** -/
def SkipsNoTime (lines : List Line) : Prop :=
  ∀ before a, before ++ [.parsed a] <+: lines → ¬Written before a → a.cycle = lastCycle before

theorem nonDecreasing_concat (h : NonDecreasing (lines ++ [.parsed a])) :
    NonDecreasing lines ∧ lastCycle lines ≤ a.cycle := by
  rw [NonDecreasing, List.filterMap_append, ← List.cons_append, List.isChain_append] at h
  obtain ⟨hlines, -, hlast⟩ := h
  exact ⟨hlines, hlast _ List.getLast?_cons a.cycle rfl⟩

theorem nonDecreasing_of_none {line : Line} (hline : line.cycle? = none) (h : NonDecreasing (lines ++ [line])) :
    NonDecreasing lines := by
  rwa [NonDecreasing, List.filterMap_append, List.filterMap_cons_none hline, List.filterMap_nil,
    List.append_nil] at h

/-- A line that is skipped loses the time since the line before. -/
theorem lost_concat (h : lastCycle lines ≤ a.cycle) :
    lost (lines ++ [.parsed a]) = lost lines + if Written lines a then 0 else a.cycle - lastCycle lines := by
  rw [lost, lost, lastCycle_parsed, total_concat, timeDelta]
  split
  · split
    · rw [Option.getD_some]
      ring
    · rw [Option.getD_none]
      omega
  · ring

theorem lost_of_none {line : Line} (h : line.cycle? = none) (lines : List Line) :
    lost (lines ++ [line]) = lost lines := by
  rw [lost, lost, lastCycle_of_none h, events_of_none h]

theorem skipsNoTime_concat (lines : List Line) (line : Line) : SkipsNoTime (lines ++ [line]) ↔
    SkipsNoTime lines ∧ ∀ a, line = .parsed a → ¬Written lines a → a.cycle = lastCycle lines := by
  constructor
  · intro h
    refine ⟨fun before a hbefore => h before a (hbefore.trans (List.prefix_append _ _)), ?_⟩
    rintro a rfl
    exact h lines a (List.prefix_refl _)
  · rintro ⟨hlines, hline⟩ before a hbefore
    rcases List.prefix_concat_iff.mp hbefore with heq | hbefore
    · obtain ⟨rfl, hlast⟩ := List.append_inj' heq rfl
      exact hline a (List.cons.inj hlast).1.symm
    · exact hlines before a hbefore

theorem skipsNoTime_of_none {line : Line} (h : line.cycle? = none) (lines : List Line) :
    SkipsNoTime (lines ++ [line]) ↔ SkipsNoTime lines := by
  rw [skipsNoTime_concat]
  refine and_iff_left ?_
  rintro a rfl
  cases h

/-- **Time is lost exactly by the lines that are skipped.** -/
theorem lost_spec (h : NonDecreasing lines) : 0 ≤ lost lines ∧ (lost lines = 0 ↔ SkipsNoTime lines) := by
  induction lines using List.reverseRecOn with
  | nil =>
    refine ⟨le_rfl, iff_of_true rfl fun before a hbefore => ?_⟩
    exact absurd (List.prefix_nil.mp hbefore) (by simp)
  | append_singleton lines line ih =>
    cases hcycle : line.cycle? with
    | none =>
      rw [lost_of_none hcycle, skipsNoTime_of_none hcycle]
      exact ih (nonDecreasing_of_none hcycle h)
    | some cycle =>
      obtain ⟨a, rfl⟩ : ∃ a, line = .parsed a := by
        cases line with
        | banner => cases hcycle
        | ignored => cases hcycle
        | parsed a => exact ⟨a, rfl⟩
      obtain ⟨hlines, hle⟩ := nonDecreasing_concat h
      obtain ⟨hnonneg, hiff⟩ := ih hlines
      rw [skipsNoTime_concat, lost_concat hle, ← hiff]
      by_cases hwritten : Written lines a
      · rw [if_pos hwritten, add_zero]
        refine ⟨hnonneg, (and_iff_left ?_).symm⟩
        rintro a' heq hskipped
        rw [← Line.parsed.inj heq] at hskipped
        exact absurd hwritten hskipped
      · -- neither of the two summands is negative
        rw [if_neg hwritten]
        refine ⟨by omega, ?_⟩
        constructor
        · intro hzero
          refine ⟨by omega, ?_⟩
          rintro a' heq -
          rw [← Line.parsed.inj heq]
          omega
        · rintro ⟨hzero, hline⟩
          have := hline a rfl hwritten
          omega

/-- **Whether the conversion of a gem5 log keeps absolute time**: exactly if, before every line that becomes an
event, the lines that do not become events have the cycle of the line before them. -/
theorem keepsTime_iff (file : List Char) (h : NonDecreasing (logLines file)) :
    KeepsTime file ↔
      ∀ before a, before ++ [.parsed a] <+: logLines file → Written before a → SkipsNoTime before := by
  refine forall₂_congr fun before a => ?_
  rw [forall_comm]
  refine forall_congr' fun hbefore => ?_
  have hchain : NonDecreasing (before ++ [.parsed a]) := by
    obtain ⟨rest, hrest⟩ := hbefore
    rw [NonDecreasing, ← hrest, List.filterMap_append, ← List.cons_append, List.isChain_append] at h
    exact h.1
  obtain ⟨hlines, hle⟩ := nonDecreasing_concat hchain
  -- the deltas up to a line that is written lack what was lost before it
  rw [← (lost_spec hlines).2]
  have hlost := lost_concat hle
  have hevents := events_prefix hbefore
  rw [lost, lastCycle_parsed] at hlost
  rw [events_concat] at hlost hevents
  have hstep := step_spec before a
  constructor
  · intro hkeeps hwritten
    rw [if_pos hwritten] at hstep hlost
    obtain ⟨ev, hev, -⟩ := Option.map_eq_some_iff.mp hstep
    have htotal := (hkeeps ev hev).2
    rw [hev, Option.toList_some, htotal] at hlost
    omega
  · intro hskips ev hev
    have hwritten : Written before a := by
      by_contra hskipped
      rw [if_neg hskipped, hev] at hstep
      cases hstep
    rw [if_pos hwritten, hev, Option.toList_some, hskips hwritten] at hlost
    rw [hev] at hevents
    exact ⟨hevents, by omega⟩

/-- A fetch, and a read of the instruction. -/
def fetchedRead : List Char :=
  "5: system.physmem: IFetch of size 4 on address 0xd58\n7: system.physmem: Read of size 4 on address 0x10\n".toList

theorem logLines_fetchedRead : logLines fetchedRead =
    [.parsed ⟨5, ['I', 'F', 'e', 't', 'c', 'h'], 4, 0xd58⟩, .parsed ⟨7, ['R', 'e', 'a', 'd'], 4, 0x10⟩] := by
  decide +kernel

/-- Both lines become events. -/
theorem keepsTime_fetchedRead : KeepsTime fetchedRead := by
  refine (keepsTime_iff fetchedRead (by rw [logLines_fetchedRead]; simp [NonDecreasing, Line.cycle?])).mpr ?_
  intro before a hbefore _
  rw [logLines_fetchedRead] at hbefore
  -- at most the fetch is before the line
  have hcases : before = [] ∨ before = [.parsed ⟨5, ['I', 'F', 'e', 't', 'c', 'h'], 4, 0xd58⟩] := by
    rcases before with _ | ⟨line, _ | ⟨line', before⟩⟩
    · exact Or.inl rfl
    · exact Or.inr (by simpa using (List.cons_prefix_cons.mp hbefore).1)
    · have hlength := hbefore.length_le
      simp at hlength
  rcases hcases with rfl | rfl
  · exact (lost_spec (by simp [NonDecreasing])).2.mp rfl
  · exact (lost_spec (by simp [NonDecreasing, Line.cycle?])).2.mp (by decide)

/-- A read before the first fetch. -/
def earlyRead : List Char :=
  "5: system.physmem: Read of size 4 on address 0x10\n6: system.physmem: IFetch of size 4 on address 0xd58\n".toList

/-- The fetch is at the time 6, but the only event of the trace is at the time 1. -/
theorem early_read_loses_time :
    (logLines earlyRead).filterMap Line.cycle? = [5, 6] ∧
      convert earlyRead = [{ ip := 0xd58, timeDelta := some 1 }] ∧ ¬KeepsTime earlyRead := by
  have hlines : logLines earlyRead =
      [.parsed ⟨5, ['R', 'e', 'a', 'd'], 4, 0x10⟩, .parsed ⟨6, ['I', 'F', 'e', 't', 'c', 'h'], 4, 0xd58⟩] := by
    decide +kernel
  rw [convert, KeepsTime, hlines]
  refine ⟨by decide, by decide, fun hkeeps => ?_⟩
  have htime := (hkeeps [.parsed ⟨5, ['R', 'e', 'a', 'd'], 4, 0x10⟩] _ _ (List.prefix_refl _) rfl).2
  exact absurd htime (by decide)

end FailStar.Gem5Converter
