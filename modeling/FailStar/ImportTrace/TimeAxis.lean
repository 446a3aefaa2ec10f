import FailStar.ImportTrace.Lanes
import FailStar.ImportTrace.SanityChecks

/-! # The time axis of the fault space

The importer decides by the dynamic instructions alone which intervals are empty, and a time of zero stands
for the start of the trace, which is not known before the first event with a time. So the rows of an address
cut up the time axis only if the first access is not before the start of the trace, and the access that ends
the last row is not before the end of the trace.

* **`TimeTiled`** — what the sanity checks ask of the rows of an address.
* **`FillsTime`** — what this takes of the accesses to the address.
* **`time_axis_tiled_iff`** — the two are equivalent, as long as the column `data_address` does not mix two
  addresses. -/

namespace FailStar.ImportTrace

/-- **The rows of an address cut up the time axis**, from `start` to `finish`. -/
structure TimeTiled (start finish : ℕ) (rows : List TraceRow) : Prop where
  le : ∀ row ∈ rows, row.time1 ≤ row.time2
  first : ∀ row ∈ rows.head?, row.time1 = start
  next : rows.IsChain fun row row' => row'.time1 = row.time2 + 1
  last : ∀ row ∈ rows.getLast?, row.time2 = finish
  /-- The address begins and ends where every address does. -/
  minimum : (rows.map TraceRow.time1).min? = some start
  maximum : (rows.map TraceRow.time2).max? = some finish
  /-- The durations add up to the total width. -/
  positive : ∀ row ∈ rows, 0 < (row.time2 : ℤ) - row.time1 + 1
  durations : (rows.map fun row => (row.time2 : ℤ) - row.time1 + 1).sum = (finish : ℤ) - start + 1

/-- The rows of a data address, ordered by `instr2`. -/
def orderedRows (st : Importer) (dataAddress : ℕ) : List TraceRow :=
  (rowsOf st.rows dataAddress).insertionSort fun row row' => row.instr2 ≤ row'.instr2

/-- **The accesses to an address that fill the time axis.** -/
structure FillsTime (cfg : Config) (kind : Kind) (events : List TraceEvent) (a : ℕ) : Prop where
  /-- The start of the trace is known at the first access, or is zero. -/
  start : ∀ x ∈ (stampsAt (touches cfg kind events) a).head?, x.start = traceStart events
  /-- The first access by the last instruction of the trace is at the end of the trace. -/
  finish : ∀ y, Newest (stampsAt (touches cfg kind events) a) y → y.instr + 1 = instructionCount events →
    y.time = traceTime events
  /-- In a trace without an instruction time goes on behind the first access. -/
  goesOn : ∀ y, Newest (stampsAt (touches cfg kind events) a) y → instructionCount events = 0 →
    y.time < traceTime events

variable {events : List TraceEvent} {cfg : Config} {kind : Kind} {st : Importer} {rows : List TraceRow}
  {labelled : List (ℕ × TraceRow)} {start last a b d : ℕ}

/-! ## Consecutive rows -/

theorem isChain_map_interval {R : ℕ × ℕ → ℕ × ℕ → Prop} (axis : Axis) :
    (rows.map axis.interval).IsChain R ↔ rows.IsChain fun row row' =>
      R (axis.interval row) (axis.interval row') :=
  List.isChain_map _

theorem sum_durations (h : Consecutive start (rows.map Axis.time.interval) (last + 1)) :
    (rows.map fun row => (row.time2 : ℤ) - row.time1 + 1).sum = (last : ℤ) - start + 1 := by
  have hlengths : (rows.map fun row => (row.time2 : ℤ) - row.time1 + 1) =
      (rows.map Axis.time.interval).map fun iv => ((intervalLength iv : ℕ) : ℤ) := by
    rw [List.map_map]
    refine List.map_congr_left fun row hrow => ?_
    have := (h.bounds (List.mem_map_of_mem hrow)).2.1
    simp only [Axis.interval, Axis.time, Function.comp_apply, intervalLength] at this ⊢
    omega
  have hle := h.le
  have hsum := h.sum_lengths
  rw [hlengths]
  have hcast : ((rows.map Axis.time.interval).map fun iv => ((intervalLength iv : ℕ) : ℤ)).sum =
      (((rows.map Axis.time.interval).map intervalLength).sum : ℕ) := by
    rw [Nat.cast_list_sum, List.map_map, List.map_map, List.map_map]
    rfl
  rw [hcast, hsum]
  omega

theorem timeTiled_iff (hne : rows ≠ []) :
    TimeTiled start last rows ↔ Consecutive start (rows.map Axis.time.interval) (last + 1) := by
  have hne' : rows.map Axis.time.interval ≠ [] := by simpa using hne
  constructor
  · intro h
    refine (consecutive_iff hne').mpr ⟨?_, ?_, ?_, ?_⟩
    · exact List.forall_mem_map.mpr h.le
    · rw [List.head?_map]
      rintro iv hiv
      obtain ⟨row, hrow, rfl⟩ := Option.map_eq_some_iff.mp hiv
      exact h.first row hrow
    · exact (isChain_map_interval Axis.time).mpr h.next
    · rw [List.getLast?_map]
      rintro iv hiv
      obtain ⟨row, hrow, rfl⟩ := Option.map_eq_some_iff.mp hiv
      exact h.last row hrow
  · intro h
    obtain ⟨hle, hfirst, hchain, hlast⟩ := (consecutive_iff hne').mp h
    have hle' : ∀ row ∈ rows, row.time1 ≤ row.time2 := List.forall_mem_map.mp hle
    have hfirst' : ∀ row ∈ rows.head?, row.time1 = start := by
      intro row hrow
      refine hfirst (Axis.time.interval row) ?_
      rw [List.head?_map]
      exact Option.map_eq_some_iff.mpr ⟨row, hrow, rfl⟩
    have hlast' : ∀ row ∈ rows.getLast?, row.time2 = last := by
      intro row hrow
      refine hlast (Axis.time.interval row) ?_
      rw [List.getLast?_map]
      exact Option.map_eq_some_iff.mpr ⟨row, hrow, rfl⟩
    have hbounds : ∀ row ∈ rows, start ≤ row.time1 ∧ row.time2 ≤ last := by
      intro row hrow
      obtain ⟨hlo, -, hhi⟩ := h.bounds (List.mem_map_of_mem hrow)
      exact ⟨hlo, Nat.le_of_lt_succ hhi⟩
    refine ⟨hle', hfirst', (isChain_map_interval Axis.time).mp hchain, hlast', ?_, ?_, ?_, sum_durations h⟩
    · rw [List.min?_eq_some_iff]
      refine ⟨?_, List.forall_mem_map.mpr fun row hrow => (hbounds row hrow).1⟩
      refine List.mem_map.mpr ⟨rows.head hne, List.head_mem hne, hfirst' _ (List.head?_eq_some_head hne)⟩
    · rw [List.max?_eq_some_iff]
      refine ⟨?_, List.forall_mem_map.mpr fun row hrow => (hbounds row hrow).2⟩
      refine List.mem_map.mpr
        ⟨rows.getLast hne, List.getLast_mem hne, hlast' _ (List.getLast?_eq_some_getLast hne)⟩
    · intro row hrow
      have := hle' row hrow
      omega

/-! ## The lane of an imported address -/

theorem stampsAt_inOrder (hlater : StrictlyLater events) (a : ℕ) :
    InOrder (stampsAt (touches cfg kind events) a) := by
  have hevents : (stamped events).Pairwise fun x y =>
      x.2.instr ≤ y.2.instr ∧ (x.2.instr < y.2.instr → x.2.time < y.2.time) :=
    List.pairwise_map.mp (stamped_inOrder hlater)
  refine List.pairwise_map.mpr (List.Pairwise.filter _ (List.pairwise_flatMap.mpr ⟨fun e _ => ?_, ?_⟩))
  · -- the bytes of one event have one stamp
    refine List.pairwise_map.mpr (List.pairwise_of_forall fun a b => ?_)
    exact ⟨le_rfl, fun hlt => absurd hlt (lt_irrefl _)⟩
  · refine hevents.imp fun {e e'} hee' => ?_
    intro x hx y hy
    obtain ⟨-, -, rfl⟩ := List.mem_map.mp hx
    obtain ⟨-, -, rfl⟩ := List.mem_map.mp hy
    exact hee'

theorem stampBounds_of_mem_stampsAt (hlater : StrictlyLater events) {x : Stamp}
    (hx : x ∈ stampsAt (touches cfg kind events) a) : StampBounds events x := by
  obtain ⟨y, hy, rfl⟩ := List.mem_map.mp hx
  obtain ⟨e, he, hye⟩ := List.mem_flatMap.mp (List.mem_of_mem_filter hy)
  obtain ⟨b, -, rfl⟩ := List.mem_map.mp hye
  exact stampBounds_of_mem hlater he

/-- What a closed lane is like. -/
structure LaneFacts (cfg : Config) (kind : Kind) (events : List TraceEvent) (a : ℕ) (cuts : List Cut) :
    Prop where
  sorted : cuts.Pairwise fun c c' => c.instr2 < c'.instr2
  first : ∃ c ∈ cuts, c.time1 ≤ traceStart events
  times : Consecutive (traceStart events) (cuts.map Cut.times) (traceTime events + 1) ↔
    FillsTime cfg kind events a

/-- The lane of an address that was not touched is one piece. -/
theorem laneFacts_of_untouched (h : stampsAt (touches cfg kind events) a = []) :
    LaneFacts cfg kind events a ((finalLane (touches cfg kind events) (traceStart events) a).closed
      (lastInstrOf events) (traceTime events)) := by
  have hclosed : (finalLane (touches cfg kind events) (traceStart events) a).closed (lastInstrOf events)
      (traceTime events) = [⟨0, lastInstrOf events, traceStart events, traceTime events⟩] := by
    rw [finalLane, if_pos h, Lane.closed, Lane.closing, if_neg (Nat.not_lt_zero _)]
    rfl
  rw [hclosed]
  refine ⟨List.pairwise_singleton _ _, ⟨_, List.mem_singleton_self _, le_rfl⟩, ?_⟩
  have hnone : ∀ y, ¬ Newest (stampsAt (touches cfg kind events) a) y := by
    intro y hy
    have := hy.mem
    rw [h] at this
    exact List.not_mem_nil this
  refine iff_of_true ⟨rfl, traceStart_le_traceTime events, rfl⟩ ⟨?_, ?_, ?_⟩
  · rw [h]
    simp
  · exact fun y hy => absurd hy (hnone y)
  · exact fun y hy => absurd hy (hnone y)

/-- The last instruction; a trace without one leaves the largest number. -/
theorem lastInstrOf_cases (hcount : instructionCount events < 2 ^ 32) :
    instructionCount events = 0 ∧ 0 < lastInstrOf events ∨
      instructionCount events = lastInstrOf events + 1 := by
  unfold lastInstrOf
  omega

/-- What closes the lane of a touched address, said of the trace. -/
theorem fillsTime_iff {x : Stamp} {xs : List Stamp} {newest : Stamp}
    (hxs : stampsAt (touches cfg kind events) a = x :: xs) (hnewest : Newest (x :: xs) newest)
    (hbounds : StampBounds events newest) (hcount : instructionCount events < 2 ^ 32) :
    (x.start = traceStart events ∧ if newest.instr < lastInstrOf events then newest.time < traceTime events
      else newest.time = traceTime events) ↔ FillsTime cfg kind events a := by
  have hinstr := hbounds.instr
  have hearlier := hbounds.earlier
  have hcases := lastInstrOf_cases hcount
  -- the number itself is of no interest
  generalize lastInstrOf events = lastInstr at hcases ⊢
  constructor
  · rintro ⟨hstart, hlast⟩
    refine ⟨?_, fun y hy hfinal => ?_, fun y hy hzero => ?_⟩
    · rw [hxs]
      rintro _ ⟨⟩
      exact hstart
    · obtain rfl := hnewest.unique (hxs ▸ hy)
      rwa [if_neg (by omega)] at hlast
    · obtain rfl := hnewest.unique (hxs ▸ hy)
      rwa [if_pos (by omega)] at hlast
  · intro h
    rw [← hxs] at hnewest
    refine ⟨h.start x (by rw [hxs]; rfl), ?_⟩
    split
    · rcases Nat.eq_zero_or_pos (instructionCount events) with hzero | hpos
      · exact h.goesOn newest hnewest hzero
      · exact hearlier (by omega)
    · exact h.finish newest hnewest (by omega)

/-- **The lane of a touched address.** -/
theorem laneFacts_of_touched (hlater : StrictlyLater events) (htime : traceTime events < 2 ^ 64)
    (hcount : instructionCount events < 2 ^ 32) (h : stampsAt (touches cfg kind events) a ≠ []) :
    LaneFacts cfg kind events a ((finalLane (touches cfg kind events) (traceStart events) a).closed
      (lastInstrOf events) (traceTime events)) := by
  rw [finalLane, if_neg h]
  obtain ⟨x, xs, hxs⟩ := List.exists_cons_of_ne_nil h
  have hbounds : ∀ y ∈ x :: xs, StampBounds events y := by
    intro y hy
    rw [← hxs] at hy
    exact stampBounds_of_mem_stampsAt hlater hy
  have hx := hbounds x List.mem_cons_self
  have hwrap : ∀ y ∈ x :: xs, y.time < 2 ^ 64 := fun y hy => (hbounds y hy).time.trans_lt htime
  have horder : InOrder (x :: xs) := by
    rw [← hxs]
    exact stampsAt_inOrder hlater a
  obtain ⟨last, hnewest, hrecords⟩ := lane_spec horder hx.start_le hwrap
  have hlast := hbounds last hnewest.mem
  rw [laneAt, hxs]
  refine ⟨hrecords.closed_sorted, ?_, ?_⟩
  · obtain ⟨c, hc, hfirst⟩ := hrecords.exists_first (lastInstrOf events) (traceTime events)
    refine ⟨c, hc, ?_⟩
    rcases hx.start with hzero | hstart
    · exact hfirst.trans hzero ▸ Nat.zero_le _
    · exact (hfirst.trans hstart).le
  · rw [hrecords.closed_times_iff htime]
    exact fillsTime_iff hxs hnewest hlast hcount

/-! ## The rows of a data address -/

variable (hlabels : Labels labelled st)

include hlabels

theorem rowsOf_labelled :
    rowsOf st.rows d = (labelled.filter fun r => r.1 % 2 ^ 32 = d).map Prod.snd := by
  rw [rowsOf, hlabels.rows, List.filter_map]
  refine congrArg (List.map Prod.snd) (List.filter_congr fun r hr => ?_)
  simp only [Function.comp_apply, hlabels.column r hr]

/-- If the column does not mix two addresses, its rows are those of one lane. -/
theorem rowsOf_eq_of_unique (hunique : ∀ r ∈ labelled, r.1 % 2 ^ 32 = d ↔ r.1 = a) :
    rowsOf st.rows d = (labelled.filter fun r => r.1 = a).map Prod.snd := by
  rw [rowsOf_labelled hlabels]
  refine congrArg (List.map Prod.snd) (List.filter_congr fun r hr => ?_)
  simp only [hunique r hr]

theorem orderedRows_eq_of_unique (hunique : ∀ r ∈ labelled, r.1 % 2 ^ 32 = d ↔ r.1 = a)
    (hsorted : (cutsAt labelled a).Pairwise fun c c' => c.instr2 < c'.instr2) :
    orderedRows st d = (labelled.filter fun r => r.1 = a).map Prod.snd := by
  rw [orderedRows, rowsOf_eq_of_unique hlabels hunique]
  refine List.Pairwise.insertionSort_eq (List.pairwise_map.mpr ?_)
  exact (List.pairwise_map.mp hsorted).imp fun hlt => le_of_lt hlt

/-- Two lanes in one column do not cut up the time axis: both begin at the start of the trace. -/
theorem eq_of_timeTiled (h : TimeTiled start last (orderedRows st d)) (ha : a % 2 ^ 32 = d) (hb : b % 2 ^ 32 = d)
    (hfirsta : ∃ c ∈ cutsAt labelled a, c.time1 ≤ start) (hfirstb : ∃ c ∈ cutsAt labelled b, c.time1 ≤ start) :
    a = b := by
  have hperm : (orderedRows st d).Perm ((labelled.filter fun r => r.1 % 2 ^ 32 = d).map Prod.snd) := by
    rw [← rowsOf_labelled hlabels]
    exact List.perm_insertionSort _ _
  have hrow : ∀ {a'}, a' % 2 ^ 32 = d → (∃ c ∈ cutsAt labelled a', c.time1 ≤ start) →
      ∃ r ∈ labelled.filter (fun r => r.1 % 2 ^ 32 = d), r.1 = a' ∧ r.2.time1 ≤ start := by
    rintro a' ha' ⟨c, hc, hle⟩
    obtain ⟨r, hr, rfl⟩ := List.mem_map.mp hc
    obtain ⟨hr, hlabel⟩ := List.mem_filter.mp hr
    have hlabel := of_decide_eq_true hlabel
    exact ⟨r, List.mem_filter.mpr ⟨hr, by simpa [hlabel] using ha'⟩, hlabel, hle⟩
  obtain ⟨r, hr, rfl, hra⟩ := hrow ha hfirsta
  obtain ⟨r', hr', rfl, hrb⟩ := hrow hb hfirstb
  have hmem : ∀ {r}, r ∈ labelled.filter (fun r => r.1 % 2 ^ 32 = d) → r.2 ∈ orderedRows st d :=
    fun hr => hperm.mem_iff.mpr (List.mem_map_of_mem hr)
  have hne : orderedRows st d ≠ [] := List.ne_nil_of_mem (hmem hr)
  have hconsecutive := (timeTiled_iff hne).mp h
  -- every row begins at another time
  have hnodup : ((orderedRows st d).map TraceRow.time1).Nodup := by
    have hpairwise := List.pairwise_map.mp hconsecutive.pairwise
    refine List.pairwise_map.mpr (hpairwise.imp_of_mem fun {row row'} hrow _ hlt heq => ?_)
    have := h.le row hrow
    simp only [Axis.interval, Axis.time] at hlt
    omega
  have hnodup' : ((labelled.filter fun r => r.1 % 2 ^ 32 = d).map fun r => r.2.time1).Nodup := by
    have := (hperm.map TraceRow.time1).nodup_iff.mp hnodup
    rwa [List.map_map] at this
  have hlea := (hconsecutive.bounds (List.mem_map_of_mem (hmem hr))).1
  have hleb := (hconsecutive.bounds (List.mem_map_of_mem (hmem hr'))).1
  have htimes : r.2.time1 = r'.2.time1 := (le_antisymm hra hlea).trans (le_antisymm hrb hleb).symm
  exact congrArg Prod.fst (List.inj_on_of_nodup_map hnodup' hr hr' htimes)

omit hlabels

/-! ## The theorem -/

/-- **When the rows of a data address cut up the time axis.** -/
theorem time_axis_tiled_iff (cfg : Config) (kind : Kind) (events : List TraceEvent) (st : Importer)
    (himport : copyToDatabase cfg kind events = some st) (hwrites : cfg.importWriteEcs = true)
    (hlater : StrictlyLater events) (htime : traceTime events < 2 ^ 64) (d : ℕ)
    (hrows : d ∈ dataAddresses st.rows) :
    TimeTiled st.timeTraceStart st.lastTime (orderedRows st d) ↔
      ∃ a, (∀ b ∈ importedAddresses cfg kind events, b % 2 ^ 32 = d ↔ b = a) ∧
        FillsTime cfg kind events a := by
  obtain ⟨hstart, hlast, hcount, labelled, hlabels, hcuts⟩ := copyToDatabase_cuts hwrites htime himport
  have hfacts : ∀ a ∈ importedAddresses cfg kind events, LaneFacts cfg kind events a (cutsAt labelled a) := by
    intro a ha
    rw [hcuts, if_pos ha]
    by_cases htouched : stampsAt (touches cfg kind events) a = []
    · exact laneFacts_of_untouched htouched
    · exact laneFacts_of_touched hlater htime hcount htouched
  have hin : ∀ r ∈ labelled, r.1 ∈ importedAddresses cfg kind events := by
    intro r hr
    by_contra hnot
    have hnone := (hcuts r.1).trans (if_neg hnot)
    have hcut : r.2.cut ∈ cutsAt labelled r.1 :=
      List.mem_map_of_mem (List.mem_filter.mpr ⟨hr, decide_eq_true rfl⟩)
    rw [hnone] at hcut
    exact List.not_mem_nil hcut
  -- an address the rows belong to
  obtain ⟨row, hrow, hd⟩ := mem_dataAddresses.mp hrows
  rw [hlabels.rows] at hrow
  obtain ⟨r, hr, rfl⟩ := List.mem_map.mp hrow
  rw [hlabels.column r hr] at hd
  have hone : ∀ a, (∀ b ∈ importedAddresses cfg kind events, b % 2 ^ 32 = d ↔ b = a) →
      (TimeTiled st.timeTraceStart st.lastTime (orderedRows st d) ↔ FillsTime cfg kind events a) := by
    intro a hunique
    obtain rfl : r.1 = a := (hunique r.1 (hin r hr)).mp hd
    have hlane := hfacts r.1 (hin r hr)
    have hne : (labelled.filter fun r' => r'.1 = r.1).map Prod.snd ≠ [] :=
      List.ne_nil_of_mem (List.mem_map_of_mem (List.mem_filter.mpr ⟨hr, decide_eq_true rfl⟩))
    rw [hstart, hlast, orderedRows_eq_of_unique hlabels (fun r' hr' => hunique r'.1 (hin r' hr')) hlane.sorted,
      timeTiled_iff hne, ← hlane.times, cutsAt, List.map_map, List.map_map]
    rfl
  constructor
  · intro htiled
    have hunique : ∀ b ∈ importedAddresses cfg kind events, b % 2 ^ 32 = d ↔ b = r.1 := by
      intro b hb
      refine ⟨fun hbd => ?_, fun heq => heq ▸ hd⟩
      rw [hstart] at htiled
      exact eq_of_timeTiled hlabels htiled hbd hd (hfacts b hb).first (hfacts r.1 (hin r hr)).first
    exact ⟨r.1, hunique, (hone r.1 hunique).mp htiled⟩
  · rintro ⟨a, hunique, hfills⟩
    exact (hone a hunique).mpr hfills

/-- A byte is written and, by the next instruction, read. -/
def updateTrace : List TraceEvent :=
  [{ ip := 10, timeDelta := some 5 },
    { ip := 10, memaddr := some 100, width := some 1, accesstype := some .write },
    { ip := 20, timeDelta := some 2 },
    { ip := 20, memaddr := some 100, width := some 1, accesstype := some .read }]

/-- The two rows of the byte cut up the time axis. -/
theorem time_axis_tiled_iff_updateTrace :
    let cfg : Config := { addressBits := 32 }
    StrictlyLater updateTrace ∧ traceTime updateTrace < 2 ^ 64 ∧
      ∃ st, copyToDatabase cfg .memory updateTrace = some st ∧ 100 ∈ dataAddresses st.rows ∧
        TimeTiled st.timeTraceStart st.lastTime (orderedRows st 100) := by
  intro cfg
  have hlater : StrictlyLater updateTrace := by decide
  have hrun : (copyToDatabase cfg .memory updateTrace).map (fun st => decide (100 ∈ dataAddresses st.rows)) =
      some true := by decide +kernel
  obtain ⟨st, hst, hrows⟩ := Option.map_eq_some_iff.mp hrun
  refine ⟨hlater, by decide, st, hst, of_decide_eq_true hrows, ?_⟩
  refine (time_axis_tiled_iff cfg .memory updateTrace st hst rfl hlater (by decide) 100
    (of_decide_eq_true hrows)).mpr ⟨100, by decide, ?_⟩
  have hstamps : stampsAt (touches cfg .memory updateTrace) 100 = [⟨0, 5, 5⟩, ⟨1, 7, 5⟩] := by decide
  have hnewest : Newest (stampsAt (touches cfg .memory updateTrace) 100) ⟨1, 7, 5⟩ :=
    ⟨[⟨0, 5, 5⟩], [], hstamps, by simp, by simp⟩
  refine ⟨?_, fun y hy _ => ?_, fun y hy hzero => absurd hzero (by decide)⟩
  · rw [hstamps]
    rintro _ ⟨⟩
    rfl
  · rw [← hnewest.unique hy]
    rfl

/-- A trace that begins at time zero. -/
def traceFromZero : List TraceEvent :=
  [{ ip := 10, timeDelta := some 0 },
    { ip := 10, memaddr := some 100, width := some 1, accesstype := some .write },
    { ip := 20, timeDelta := some 3 }]

/-- A trace whose last instruction accesses two bytes, one after the other. -/
def twoAccesses : List TraceEvent :=
  [{ ip := 10, timeDelta := some 5 },
    { ip := 10, memaddr := some 100, width := some 1, accesstype := some .read },
    { ip := 10, timeDelta := some 1, memaddr := some 200, width := some 1, accesstype := some .write }]

/-- **The first row begins before the start of the trace**, if the trace begins at time zero; **the last row
ends before the end of the trace**, if the last instruction goes on behind the access. -/
theorem time_axis_not_tiled :
    let cfg : Config := { addressBits := 32 }
    (StrictlyLater traceFromZero ∧ ∃ st, copyToDatabase cfg .memory traceFromZero = some st ∧
      100 ∈ dataAddresses st.rows ∧ ¬ TimeTiled st.timeTraceStart st.lastTime (orderedRows st 100)) ∧
    StrictlyLater twoAccesses ∧ ∃ st, copyToDatabase cfg .memory twoAccesses = some st ∧
      100 ∈ dataAddresses st.rows ∧ ¬ TimeTiled st.timeTraceStart st.lastTime (orderedRows st 100) := by
  intro cfg
  refine ⟨⟨by decide, ?_⟩, by decide, ?_⟩
  · have hrun : (copyToDatabase cfg .memory traceFromZero).map (fun st => (decide (100 ∈ dataAddresses st.rows),
        st.timeTraceStart, ((orderedRows st 100).map TraceRow.time1).min?)) = some (true, 3, some 0) := by
      decide +kernel
    obtain ⟨st, hst, heq⟩ := Option.map_eq_some_iff.mp hrun
    obtain ⟨hrows, hstart, hmin⟩ : _ ∧ _ ∧ _ := by simpa only [Prod.mk.injEq] using heq
    refine ⟨st, hst, of_decide_eq_true hrows, fun h => ?_⟩
    have hminimum := h.minimum
    rw [hmin, hstart] at hminimum
    exact absurd hminimum (by decide)
  · have hrun : (copyToDatabase cfg .memory twoAccesses).map (fun st => (decide (100 ∈ dataAddresses st.rows),
        st.lastTime, ((orderedRows st 100).map TraceRow.time2).max?)) = some (true, 6, some 5) := by
      decide +kernel
    obtain ⟨st, hst, heq⟩ := Option.map_eq_some_iff.mp hrun
    obtain ⟨hrows, hlast, hmax⟩ : _ ∧ _ ∧ _ := by simpa only [Prod.mk.injEq] using heq
    refine ⟨st, hst, of_decide_eq_true hrows, fun h => ?_⟩
    have hmaximum := h.maximum
    rw [hmax, hlast] at hmaximum
    exact absurd hmaximum (by decide)

end FailStar.ImportTrace
