import FailStar.ImportTrace.DelayedEntries

/-! # Rows that begin with the trace

`getOpenEC` replaces the time of an equivalence class that was never opened by `m_time_trace_start`. The
`AdvancedMemoryImporter` asks for it later than the `MemoryImporter`, and the first time delta may have arrived
in between.

* **`EarlyOpen`** — the open equivalence classes before the first time delta.
* **`NoLateStart`** — no row is asked for its trace start too late.
* **`advanced_refines_memory`** — when the two importers insert the same rows. -/

namespace FailStar.ImportTrace

variable {cfg : Config} {instrMap : InstrMap} {events : List TraceEvent} {ev : TraceEvent} {st : Importer}

/-! ## The first row of an address -/


theorem length_rowByte (start start' : ℕ) (openEcs : Std.TreeMap ℕ Margin) (x : Touch) :
    (rowByte cfg start openEcs x).length = (rowByte cfg start' openEcs x).length := by
  rw [rowByte, rowByte]
  split
  · rfl
  · rfl

/-- The open equivalence classes behind the operations `xs` of the early part of a trace: they begin at time 1,
and those of other addresses will begin with the trace. -/
structure EarlyOpen (cfg : Config) (xs : List Touch) (openEcs : Std.TreeMap ℕ Margin) : Prop where
  time : ∀ (a : ℕ) (m : Margin), openEcs[a]? = some m → m.time = 1
  keys : ∀ a, a ∈ openEcs ↔ cfg.isMatching a = true ∧ ∃ x ∈ xs, x.2 = a

theorem earlyOpen_init (cfg : Config) : EarlyOpen cfg [] ∅ := ⟨by simp, by simp⟩

variable {xs : List Touch} {openEcs : Std.TreeMap ℕ Margin} {x : Touch}

theorem EarlyOpen.keys_concat (h : EarlyOpen cfg xs openEcs) (hm : cfg.isMatching x.2 = true) (a : ℕ) :
    x.2 = a ∨ a ∈ openEcs ↔ cfg.isMatching a = true ∧ ∃ y ∈ xs ++ [x], y.2 = a := by
  rw [h.keys]
  constructor
  · rintro (rfl | ⟨ha, y, hy, rfl⟩)
    · exact ⟨hm, x, List.mem_append_right _ (List.mem_singleton_self x), rfl⟩
    · exact ⟨ha, y, List.mem_append_left _ hy, rfl⟩
  · rintro ⟨ha, y, hy, rfl⟩
    obtain hy | hy := List.mem_append.mp hy
    · exact Or.inr ⟨ha, y, hy, rfl⟩
    · rw [List.mem_singleton.mp hy]
      exact Or.inl rfl

theorem EarlyOpen.step (h : EarlyOpen cfg xs openEcs) (hx : x.1.curtime = 0) :
    EarlyOpen cfg (xs ++ [x]) (openByte cfg openEcs x) := by
  rw [openByte]
  by_cases hm : cfg.isMatching x.2 = true
  · rw [if_pos hm]
    split
    · -- a zero-sized interval: the entry exists
      refine ⟨fun a m ha => ?_, fun a => ?_⟩
      · rw [Std.TreeMap.getElem?_insertIfNew] at ha
        split at ha
        · rename_i hlt hnew
          rw [Std.TreeMap.getElem?_eq_none hnew.2] at hlt
          exact absurd hlt (Nat.not_lt_zero _)
        · exact h.time a m ha
      · rw [Std.TreeMap.mem_insertIfNew, Std.compare_eq_iff_eq]
        exact h.keys_concat hm a
    · refine ⟨fun a m ha => ?_, fun a => ?_⟩
      · rw [Std.TreeMap.getElem?_insert] at ha
        split at ha
        · rw [← Option.some.inj ha, hx]
          norm_num
        · rename_i hne
          rw [Std.TreeMap.getElem?_insertIfNew, if_neg (fun hnew => hne hnew.1)] at ha
          exact h.time a m ha
      · rw [Std.TreeMap.mem_insert, Std.TreeMap.mem_insertIfNew, Std.compare_eq_iff_eq, or_self_left]
        exact h.keys_concat hm a
  · rw [if_neg hm]
    refine ⟨h.time, fun a => ?_⟩
    rw [h.keys]
    refine and_congr_right fun ha => ?_
    simp only [List.mem_append, List.mem_singleton]
    constructor
    · rintro ⟨y, hy, rfl⟩
      exact ⟨y, Or.inl hy, rfl⟩
    · rintro ⟨y, hy | rfl, rfl⟩
      · exact ⟨y, hy, rfl⟩
      · exact absurd ha hm

theorem earlyOpen_foldl (hxs : ∀ x ∈ xs, x.1.curtime = 0) : EarlyOpen cfg xs (xs.foldl (openByte cfg) ∅) := by
  induction xs using List.reverseRecOn with
  | nil => exact earlyOpen_init cfg
  | append_singleton xs x ih =>
    rw [List.foldl_append]
    exact (ih fun y hy => hxs y (List.mem_append_left _ hy)).step
      (hxs x (List.mem_append_right _ (List.mem_singleton_self x)))

/-- **A row only depends on the trace start if it is the first one of its address.** -/
theorem EarlyOpen.rowByte_eq_iff (h : EarlyOpen cfg xs openEcs) {start : ℕ} (hstart : start ≠ 0) :
    rowByte cfg start openEcs x = rowByte cfg 0 openEcs x ↔
      (cfg.isMatching x.2 = true → cfg.imports x.1.ev = true → ∃ y ∈ xs, y.2 = x.2) := by
  rw [rowByte, rowByte]
  constructor
  · intro heq hm himports
    by_contra hnew
    have hopen : x.2 ∉ openEcs := fun hmem => hnew ((h.keys x.2).mp hmem).2
    have hnone : openEcs[x.2]? = none := Std.TreeMap.getElem?_eq_none hopen
    have hrow : cfg.isMatching x.2 = true ∧ (openEcs[x.2]?.getD {}).dyninstr ≤ x.1.instr ∧
        cfg.imports x.1.ev = true := ⟨hm, by rw [hnone]; exact Nat.zero_le _, himports⟩
    rw [if_pos hrow, if_pos hrow, hnone] at heq
    exact hstart (congrArg TraceRow.time1 (List.cons.inj heq).1)
  · intro hold
    split
    · rename_i hrow
      have hmem : x.2 ∈ openEcs := (h.keys x.2).mpr ⟨hrow.1, hold hrow.1 hrow.2.2⟩
      obtain ⟨m, hm⟩ := Option.isSome_iff_exists.mp (Std.TreeMap.mem_iff_isSome_getElem?.mp hmem)
      have htime := h.time x.2 m hm
      have hmargin : ∀ start, leftMargin start m = m := by
        intro start
        rw [leftMargin, if_neg (by rw [htime]; exact Nat.one_ne_zero)]
      rw [hm, Option.getD_some, hmargin, hmargin]
    · rfl

/-! ## Which rows notice the delay -/

/-- The bytes of an entry that the memory map lists. -/
def DelayedTraceEntry.bytes (cfg : Config) (entry : DelayedTraceEntry) : List ℕ :=
  cfg.listedBytes entry.ev.getMemaddr (entry.ev.getMemaddr + entry.ev.getWidth)

theorem mem_touches {entry : DelayedTraceEntry} {x : Touch} :
    x ∈ entry.touches cfg ∧ cfg.isMatching x.2 = true ↔ x.1 = entry ∧ x.2 ∈ entry.bytes cfg := by
  rw [DelayedTraceEntry.touches, DelayedTraceEntry.bytes, Config.listedBytes, List.mem_map, List.mem_filter]
  constructor
  · rintro ⟨⟨a, ha, rfl⟩, hm⟩
    exact ⟨rfl, ha, hm⟩
  · rintro ⟨rfl, ha, hm⟩
    exact ⟨⟨x.2, ha, rfl⟩, hm⟩

theorem touchesOf_cons (entry : DelayedTraceEntry) (entries : List DelayedTraceEntry) :
    touchesOf cfg (entry :: entries) = entry.touches cfg ++ touchesOf cfg entries := List.flatMap_cons

theorem touchesOf_split {entries : List DelayedTraceEntry} {front back : List Touch} {x : Touch}
    (h : touchesOf cfg entries = front ++ x :: back) :
    ∃ before entry after rest, entries = before ++ entry :: after ∧ front = touchesOf cfg before ++ rest ∧
      x ∈ entry.touches cfg := by
  induction entries generalizing front with
  | nil => exact absurd h (by simp [touchesOf])
  | cons entry entries ih =>
    rw [touchesOf_cons] at h
    obtain ⟨c, hfront, hrest⟩ | ⟨c, hentry, hrest⟩ := List.append_eq_append_iff.mp h
    · obtain ⟨before, entry', after, rest, rfl, rfl, hx⟩ := ih hrest
      refine ⟨entry :: before, entry', after, rest, rfl, ?_, hx⟩
      rw [hfront, touchesOf_cons, List.append_assoc]
    · cases c with
      | nil =>
        have htail : touchesOf cfg entries = [] ++ x :: back := hrest.symm
        obtain ⟨before, entry', after, rest, rfl, hnil, hx⟩ := ih htail
        refine ⟨entry :: before, entry', after, rest, rfl, ?_, hx⟩
        rw [touchesOf_cons, List.append_assoc, ← hnil, hentry, List.append_nil, List.append_nil]
      | cons y c =>
        obtain ⟨rfl, -⟩ := List.cons.inj hrest
        refine ⟨[], entry, entries, front, rfl, rfl, ?_⟩
        rw [hentry]
        exact List.mem_append_right _ List.mem_cons_self

theorem append_split_of_le {α : Type*} {xs ys front : List α} {x : α} {back : List α}
    (h : xs ++ ys = front ++ x :: back) (hle : xs.length ≤ front.length) :
    ∃ mid, front = xs ++ mid ∧ ys = mid ++ x :: back := by
  obtain ⟨mid, hfront, hys⟩ | ⟨mid, hxs, hback⟩ := List.append_eq_append_iff.mp h
  · exact ⟨mid, hfront, hys⟩
  · rw [hxs, List.length_append] at hle
    obtain rfl : mid = [] := List.length_eq_zero_iff.mp (by omega)
    exact ⟨[], by rw [hxs, List.append_nil, List.append_nil], hback.symm⟩

theorem exists_touch_iff {entries : List DelayedTraceEntry} {a : ℕ} (ha : cfg.isMatching a = true) :
    (∃ y ∈ touchesOf cfg entries, y.2 = a) ↔ ∃ entry ∈ entries, a ∈ entry.bytes cfg := by
  constructor
  · rintro ⟨y, hy, rfl⟩
    obtain ⟨entry, hentry, hy⟩ := List.mem_flatMap.mp hy
    exact ⟨entry, hentry, (mem_touches.mp ⟨hy, ha⟩).2⟩
  · rintro ⟨entry, hentry, hbytes⟩
    have hy : (entry, a) ∈ entry.touches cfg := (mem_touches.mpr ⟨rfl, hbytes⟩).1
    exact ⟨(entry, a), List.mem_flatMap.mpr ⟨entry, hentry, hy⟩, rfl⟩

theorem curtime_of_touch (cfg : Config) {entries : List DelayedTraceEntry}
    (htime : ∀ entry ∈ entries, entry.curtime = 0) :
    ∀ x ∈ touchesOf cfg entries, x.1.curtime = 0 := by
  intro x hx
  obtain ⟨entry, hentry, hx⟩ := List.mem_flatMap.mp hx
  obtain ⟨a, -, rfl⟩ := List.mem_map.mp hx
  exact htime entry hentry

/-- The operation on a byte yields the same row with and without a start, unless it is the first one on this
byte. -/
theorem rowByte_eq_iff_of_early {entries : List DelayedTraceEntry} {rest : List Touch} {start : ℕ}
    (hstart : start ≠ 0) (htime : ∀ entry ∈ entries, entry.curtime = 0) (hrest : ∀ y ∈ rest, y.1.curtime = 0) :
    rowByte cfg start ((touchesOf cfg entries ++ rest).foldl (openByte cfg) ∅) x =
        rowByte cfg 0 ((touchesOf cfg entries ++ rest).foldl (openByte cfg) ∅) x ↔
      (cfg.isMatching x.2 = true → cfg.imports x.1.ev = true →
        (∃ entry ∈ entries, x.2 ∈ entry.bytes cfg) ∨ ∃ y ∈ rest, y.2 = x.2) := by
  have htimes : ∀ y ∈ touchesOf cfg entries ++ rest, y.1.curtime = 0 := by
    intro y hy
    obtain hy | hy := List.mem_append.mp hy
    · exact curtime_of_touch cfg htime y hy
    · exact hrest y hy
  rw [(earlyOpen_foldl htimes).rowByte_eq_iff hstart]
  refine imp_congr_right fun hm => imp_congr_right fun _ => ?_
  rw [← exists_touch_iff hm]
  simp only [List.mem_append, or_and_right, exists_or]

/-- **Which delayed entries notice the start of the trace**: those with a row that is the first one of its
byte. -/
theorem window_eq_iff {inserted delayed : List DelayedTraceEntry} {start : ℕ} (hstart : start ≠ 0)
    (htime : ∀ entry ∈ inserted ++ delayed, entry.curtime = 0) :
    emit (openByte cfg) (rowByte cfg) start ((touchesOf cfg inserted).foldl (openByte cfg) ∅)
    (touchesOf cfg delayed) =
        emit (openByte cfg) (rowByte cfg) 0 ((touchesOf cfg inserted).foldl (openByte cfg) ∅)
          (touchesOf cfg delayed) ↔
      ∀ before entry after, delayed = before ++ entry :: after → cfg.imports entry.ev = true →
        ∀ a ∈ entry.bytes cfg, ∃ entry' ∈ inserted ++ before, a ∈ entry'.bytes cfg := by
  rw [emit_eq_iff length_rowByte]
  constructor
  · intro h before entry after hsplit himports a ha
    obtain ⟨hx, hm⟩ := mem_touches.mpr (show (entry, a).1 = entry ∧ _ from ⟨rfl, ha⟩)
    obtain ⟨rest, back, htouches, hnew⟩ := List.eq_append_cons_of_mem hx
    have hrow := h (touchesOf cfg before ++ rest) (entry, a) (back ++ touchesOf cfg after) (by
      rw [hsplit, touchesOf_append, touchesOf_cons, htouches]
      simp)
    have hentry : ∀ y ∈ rest, y.1 = entry := by
      intro y hy
      have hy' : y ∈ entry.touches cfg := by
        rw [htouches]
        exact List.mem_append_left _ hy
      obtain ⟨a', -, rfl⟩ := List.mem_map.mp hy'
      rfl
    have htime' : ∀ y ∈ rest, y.1.curtime = 0 := by
      intro y hy
      rw [hentry y hy]
      exact htime entry (by simp [hsplit])
    rw [← List.foldl_append, ← List.append_assoc, ← touchesOf_append, rowByte_eq_iff_of_early hstart
      (fun y hy => htime y (by rw [hsplit, ← List.append_assoc]; exact List.mem_append_left _ hy))
        htime'] at hrow
    obtain hold | ⟨y, hy, hya⟩ := hrow hm himports
    · exact hold
    · -- the loop looks at a byte only once
      exact absurd (Prod.ext (hentry y hy) hya ▸ hy) hnew
  · intro h front x back hsplit
    obtain ⟨before, entry, after, rest, rfl, rfl, hx⟩ := touchesOf_split hsplit
    have htime' : ∀ y ∈ touchesOf cfg before ++ rest, y.1.curtime = 0 := by
      intro y hy
      refine curtime_of_touch cfg (fun entry hentry => htime entry (List.mem_append_right _ hentry)) y ?_
      rw [hsplit]
      exact List.mem_append_left _ hy
    rw [← List.foldl_append, ← List.append_assoc, ← touchesOf_append, rowByte_eq_iff_of_early hstart
      (fun y hy => htime y (by rw [← List.append_assoc]; exact List.mem_append_left _ hy))
      (fun y hy => htime' y (List.mem_append_right _ hy))]
    intro hm himports
    obtain ⟨hxe, hbytes⟩ := mem_touches.mp ⟨hx, hm⟩
    rw [hxe] at himports
    exact Or.inl (h before entry after rfl himports x.2 hbytes)

/-! ## Entries and events -/

theorem entriesFrom_split {front : List TraceEvent} {before after : List DelayedTraceEntry}
    {entry : DelayedTraceEntry} (h : entriesFrom instrMap front events = before ++ entry :: after) :
    ∃ mid ev back, events = mid ++ ev :: back ∧ ev.hasMemaddr = true ∧
      entry = entryAt instrMap (front ++ mid) ev ∧
      entriesFrom instrMap front mid = before := by
  induction events generalizing front before with
  | nil => exact absurd h (by simp [entriesFrom])
  | cons ev events ih =>
    rw [entriesFrom] at h
    by_cases hmem : ev.hasMemaddr = true
    · rw [if_pos hmem, List.singleton_append] at h
      cases before with
      | nil =>
        obtain ⟨rfl, -⟩ := List.cons.inj h
        exact ⟨[], ev, events, rfl, hmem, by rw [List.append_nil], rfl⟩
      | cons entry' before =>
        obtain ⟨rfl, hrest⟩ := List.cons.inj h
        obtain ⟨mid, ev', back, rfl, hmem', rfl, rfl⟩ := ih hrest
        refine ⟨ev :: mid, ev', back, rfl, hmem', by rw [List.append_assoc]; rfl, ?_⟩
        rw [entriesFrom, if_pos hmem]
        rfl
    · rw [if_neg hmem, List.nil_append] at h
      obtain ⟨mid, ev', back, rfl, hmem', rfl, rfl⟩ := ih h
      refine ⟨ev :: mid, ev', back, rfl, hmem', by rw [List.append_assoc]; rfl, ?_⟩
      rw [entriesFrom, if_neg hmem]
      rfl

/-- An entry comes from a memory event, and the entries before it from the events before. -/
theorem entriesOf_split {before after : List DelayedTraceEntry} {entry : DelayedTraceEntry}
    (h : entriesOf instrMap events = before ++ entry :: after) :
    ∃ front ev mid, events = front ++ ev :: mid ∧ ev.hasMemaddr = true ∧ entry = entryAt instrMap front ev ∧
      entriesOf instrMap front = before := entriesFrom_split h

theorem entriesOf_mem (hmem : ev.hasMemaddr = true) (front mid : List TraceEvent) :
    entriesOf instrMap (front ++ ev :: mid) =
      entriesOf instrMap front ++ entryAt instrMap front ev :: entriesFrom instrMap (front ++ [ev]) mid := by
  rw [entriesOf_append, entriesFrom, if_pos hmem]
  rfl

theorem exists_bytes_iff {a : ℕ} :
    (∃ entry ∈ entriesOf instrMap events, a ∈ entry.bytes cfg) ↔
      ∃ ev ∈ events, a ∈ Kind.bytes cfg .memory ev := by
  induction events using List.reverseRecOn with
  | nil => simp [entriesOf, entriesFrom]
  | append_singleton events ev ih =>
    rw [entriesOf_concat]
    simp only [List.mem_append, or_and_right, exists_or, List.mem_singleton, exists_eq_left, ih]
    refine or_congr_right ?_
    rw [Kind.bytes]
    by_cases hmem : ev.hasMemaddr = true
    · simp only [if_pos hmem, List.mem_singleton, exists_eq_left]
      rfl
    · simp [if_neg hmem]

theorem timeSince_early (h : ev ∈ early events) : timeSince ev = 0 := by
  have hp := List.mem_takeWhile_imp h
  exact of_decide_eq_true hp

theorem curtime_early {entry : DelayedTraceEntry} (h : entry ∈ entriesOf instrMap (early events)) :
    entry.curtime = 0 := by
  obtain ⟨before, after, hsplit⟩ := List.append_of_mem h
  obtain ⟨front, ev, mid, hearly, -, rfl, -⟩ := entriesOf_split hsplit
  have hzero : traceTime (front ++ [ev]) = 0 := by
    refine List.sum_eq_zero_iff.mpr fun delta hdelta => ?_
    obtain ⟨ev', hev', rfl⟩ := List.mem_map.mp hdelta
    have hmem : ev' ∈ early events := by
      rw [hearly]
      exact (List.append_cons front ev mid) ▸ List.mem_append_left _ hev'
    exact timeSince_early hmem
  show traceTime (front ++ [ev]) % 2 ^ 64 = 0
  rw [hzero, Nat.zero_mod]

/-! ## The refinement -/

/-- **No row is asked for its trace start too late**: there is no time delta at all, or whenever a memory event
is still delayed at the first one, other events have accessed the same bytes before it. -/
def NoLateStart (cfg : Config) (instrMap : InstrMap) (events : List TraceEvent) : Prop :=
  traceStart events = 0 ∨
    ∀ front ev mid, early events = front ++ ev :: mid → ev.hasMemaddr = true → cfg.imports ev = true →
      StillDelayed instrMap front ev mid →
        ∀ a ∈ Kind.bytes cfg .memory ev, ∃ ev' ∈ front, a ∈ Kind.bytes cfg .memory ev'

theorem bytes_entryAt (hmem : ev.hasMemaddr = true) (front : List TraceEvent) :
    (entryAt instrMap front ev).bytes cfg = Kind.bytes cfg .memory ev := by
  rw [Kind.bytes, if_pos hmem]
  rfl

theorem backlog_delayed_iff (cfg : Config) (instrMap : InstrMap) (events : List TraceEvent) :
    (∀ before entry after, (backlog instrMap events).delayed = before ++ entry :: after →
        cfg.imports entry.ev = true → ∀ a ∈ entry.bytes cfg,
          ∃ entry' ∈ (backlog instrMap events).inserted ++ before, a ∈ entry'.bytes cfg) ↔
      ∀ front ev mid, events = front ++ ev :: mid → ev.hasMemaddr = true → cfg.imports ev = true →
        StillDelayed instrMap front ev mid →
          ∀ a ∈ Kind.bytes cfg .memory ev, ∃ ev' ∈ front, a ∈ Kind.bytes cfg .memory ev' := by
  have hentries := backlog_entries instrMap events
  constructor
  · intro h front ev mid hsplit hmem himports hdelayed a ha
    rw [stillDelayed_iff hmem, ← hsplit] at hdelayed
    rw [hsplit, entriesOf_mem hmem, ← hsplit] at hentries
    obtain ⟨before, hbefore, hrest⟩ := append_split_of_le hentries hdelayed
    rw [← bytes_entryAt hmem front] at ha
    have hold := h before _ _ hrest himports a ha
    rw [← hbefore] at hold
    exact exists_bytes_iff.mp hold
  · intro h before entry after hsplit himports a ha
    rw [hsplit, ← List.append_assoc] at hentries
    obtain ⟨front, ev, mid, hevents, hmem, rfl, hfront⟩ := entriesOf_split hentries.symm
    rw [bytes_entryAt hmem front] at ha
    rw [← hfront, exists_bytes_iff]
    refine h front ev mid hevents hmem himports ?_ a ha
    rw [stillDelayed_iff hmem, ← hevents, hfront, List.length_append]
    exact Nat.le_add_right _ _

/-- The rows of an import, in the columns that both importers have. -/
def sharedRows (imported : Option Importer) : Option (List TraceRow) :=
  imported.map fun st => st.rows.map TraceRow.shared

/-- **Delayed rows are the same rows**: one importer has inserted the entries `inserted ++ delayed` before the
start was known, the other one only `inserted`. -/
theorem written_rows_eq_iff {inserted delayed later : List DelayedTraceEntry} {start : ℕ} {st st' : Importer}
    (h : Written cfg start inserted (delayed ++ later) st)
    (h' : Written cfg start (inserted ++ delayed) later st') :
    st.rows.map TraceRow.shared = st'.rows.map TraceRow.shared ↔
      emit (openByte cfg) (rowByte cfg) start ((touchesOf cfg inserted).foldl (openByte cfg) ∅)
          (touchesOf cfg delayed) =
        emit (openByte cfg) (rowByte cfg) 0 ((touchesOf cfg inserted).foldl (openByte cfg) ∅)
          (touchesOf cfg delayed) := by
  rw [h.rows, h'.rows, touchesOf_append, touchesOf_append]
  exact emit_window length_rowByte 0 start ∅ _ _ _

/-- The start of the trace is noticed exactly by the rows of `NoLateStart`. -/
theorem noLateStart_iff (cfg : Config) (instrMap : InstrMap) (events : List TraceEvent) :
    NoLateStart cfg instrMap events ↔
      emit (openByte cfg) (rowByte cfg) (traceStart events)
          ((touchesOf cfg (backlog instrMap (early events)).inserted).foldl (openByte cfg) ∅)
          (touchesOf cfg (backlog instrMap (early events)).delayed) =
        emit (openByte cfg) (rowByte cfg) 0
          ((touchesOf cfg (backlog instrMap (early events)).inserted).foldl (openByte cfg) ∅)
          (touchesOf cfg (backlog instrMap (early events)).delayed) := by
  rw [NoLateStart]
  by_cases hstart : traceStart events = 0
  · rw [hstart]
    exact iff_of_true (Or.inl rfl) rfl
  · rw [window_eq_iff hstart, backlog_delayed_iff]
    · exact or_iff_right hstart
    · rw [backlog_entries]
      exact fun entry hentry => curtime_early hentry

/-- What the `AdvancedMemoryImporter` has inserted behind `trace_end_reached`. -/
theorem Delays.traceEndReached {q : AdvancedMemoryImporter.Delaying} (h : Delays cfg instrMap events q)
    (hdb : cfg.Accepts) {later : List DelayedTraceEntry}
    (hlater : entriesOf instrMap events = entriesOf instrMap (early events) ++ later) :
    Written cfg (traceStart events) (backlog instrMap (early events)).inserted
        ((backlog instrMap (early events)).delayed ++ later) (AdvancedMemoryImporter.traceEndReached cfg q).st ∧
      (AdvancedMemoryImporter.traceEndReached cfg q).st.timeTraceStart = traceStart events := by
  obtain ⟨ys, hys, hwritten⟩ := h.follows
  dsimp only at hys hwritten
  have hrec := records_insertDelayedEntries hdb q.history.branchesTaken true q.history.delayedEntries q.st
  rw [takeWhile_released_true, h.delayed] at hrec
  have hstart : { q.st with timeTraceStart := traceStart events } = q.st := by
    rw [← h.clock.start]
  have hqueue : ys ++ (backlog instrMap events).delayed =
      (backlog instrMap (early events)).delayed ++ later := by
    rw [← backlog_entries, ← backlog_entries, hys, List.append_assoc, List.append_assoc] at hlater
    exact List.append_cancel_left hlater
  rw [← hqueue, AdvancedMemoryImporter.traceEndReached, h.delayed]
  refine ⟨hwritten.record ?_, hrec.start.trans h.clock.start⟩
  rw [hstart]
  exact hrec

/-- **The two importers at the end of a trace only differ in their rows.** -/
theorem endTrace_advanced {p : Progress} {q : AdvancedMemoryImporter.Delaying} {later : List DelayedTraceEntry}
    (hp : Clock events p) (hq : Delays cfg instrMap events q) (hdb : cfg.Accepts)
    (hlater : entriesOf instrMap events = entriesOf instrMap (early events) ++ later)
    (hwritten : Written cfg (traceStart events) (entriesOf instrMap (early events)) later p.st) :
    endTrace cfg (AdvancedMemoryImporter.traceEndReached cfg q) =
      { endTrace cfg p with rows := (AdvancedMemoryImporter.traceEndReached cfg q).st.rows } := by
  obtain ⟨hend, hstart⟩ := hq.traceEndReached hdb hlater
  have hopen : (AdvancedMemoryImporter.traceEndReached cfg q).st.openEcs = p.st.openEcs := by
    rw [hend.openEcs, hwritten.openEcs, ← backlog_entries, List.append_assoc]
  have htime : q.curtime = p.curtime := hq.clock.time.trans hp.time.symm
  have hinstr : q.instr = p.instr := hq.clock.instr.trans hp.instr.symm
  have hip : q.ip = p.ip := hq.clock.ip.trans hp.ip.symm
  rw [endTrace, endTrace]
  simp only [Importer.mk.injEq, and_true]
  exact ⟨hstart.trans hp.start.symm, hopen, congrArg cfg.address hip,
    congrArg (fun n => (n + (2 ^ 32 - 1)) % 2 ^ 32) hinstr, htime⟩

/-- A trace that can be imported by both: the rows are the same exactly if no start is late. -/
theorem sharedRows_eq_iff (hdb : cfg.Accepts) (hread : Readable events) (hfirst : BeginsWithInstruction events)
    (hfind : ∀ ev ∈ events, (instrMap.find ev).isSome = true) :
    sharedRows (AdvancedMemoryImporter.copyToDatabase cfg instrMap events) =
        sharedRows (copyToDatabase cfg .memory events) ↔ NoLateStart cfg instrMap events := by
  obtain ⟨p, hp, hclock, later, hlater, hwritten⟩ := importEvents_memory hdb instrMap hread
  obtain ⟨q, hq, hdelays⟩ := importEvents_advanced hdb hread hfirst hfind
  obtain ⟨hend, -⟩ := hdelays.traceEndReached hdb hlater
  rw [AdvancedMemoryImporter.copyToDatabase, copyToDatabase, hp, hq, Option.bind_some, Option.bind_some,
    endTrace_advanced hclock hdelays hdb hlater hwritten, noLateStart_iff]
  rw [← backlog_entries] at hwritten
  rw [← written_rows_eq_iff hend hwritten]
  exact closed_rows_eq_iff hdb _ .memory (endTrace cfg p) _

theorem isSome_memory_iff (hdb : cfg.Accepts) :
    (copyToDatabase cfg .memory events).isSome = true ↔ Readable events := by
  constructor
  · intro h
    obtain ⟨st, hst⟩ := Option.isSome_iff_exists.mp h
    obtain ⟨p, hp, -⟩ := Option.bind_eq_some_iff.mp hst
    exact readable_of_memory hdb hp
  · intro h
    obtain ⟨p, hp, -⟩ := importEvents_memory hdb (fun _ => none) h
    obtain ⟨st, hst, -⟩ := closeEcIntervals_of_accepts hdb (openUnusedEcIntervals cfg .memory (endTrace cfg p))
    rw [copyToDatabase, hp, Option.bind_some, hst]
    rfl

theorem readable_of_isSome_advanced (hdb : cfg.Accepts) (hfind : ∀ ev ∈ events, (instrMap.find ev).isSome = true)
    (h : (AdvancedMemoryImporter.copyToDatabase cfg instrMap events).isSome = true) :
    Readable events ∧ BeginsWithInstruction events := by
  obtain ⟨st, hst⟩ := Option.isSome_iff_exists.mp h
  obtain ⟨q, hq, -⟩ := Option.bind_eq_some_iff.mp hst
  exact ⟨readable_of_advanced hdb hfind hq, beginsWithInstruction_of_advanced hq⟩

/-- **When the `AdvancedMemoryImporter` refines the `MemoryImporter`**: exactly if both refuse the trace, or the
trace begins with an instruction and no memory event is delayed over the first time delta when it is the first
one to access a byte. -/
theorem advanced_refines_memory (hdb : cfg.Accepts) (hfind : ∀ ev ∈ events, (instrMap.find ev).isSome = true) :
    sharedRows (AdvancedMemoryImporter.copyToDatabase cfg instrMap events) =
        sharedRows (copyToDatabase cfg .memory events) ↔
      ¬ Readable events ∨ BeginsWithInstruction events ∧ NoLateStart cfg instrMap events := by
  by_cases hread : Readable events
  · rw [or_iff_right (not_not_intro hread)]
    by_cases hfirst : BeginsWithInstruction events
    · rw [sharedRows_eq_iff hdb hread hfirst hfind, and_iff_right hfirst]
    · -- only the MemoryImporter imports the trace
      refine iff_of_false (fun heq => hfirst ?_) (fun h => hfirst h.1)
      have hsome := congrArg Option.isSome heq
      rw [sharedRows, sharedRows, Option.isSome_map, Option.isSome_map,
        (isSome_memory_iff hdb).mpr hread] at hsome
      exact (readable_of_isSome_advanced hdb hfind hsome).2
  · have hmemory : copyToDatabase cfg .memory events = none :=
      Option.not_isSome_iff_eq_none.mp fun h => hread ((isSome_memory_iff hdb).mp h)
    have hadvanced : AdvancedMemoryImporter.copyToDatabase cfg instrMap events = none :=
      Option.not_isSome_iff_eq_none.mp fun h => hread (readable_of_isSome_advanced hdb hfind h).1
    rw [hmemory, hadvanced]
    exact iff_of_true rfl (Or.inl hread)

/-- Every address holds an instruction of four bytes. -/
def straightLine : InstrMap := fun _ => some { length := 4 }

/-- A trace that begins at time 0: a byte is read before time passes. -/
def readAtTimeZero : List TraceEvent :=
  [{ ip := 0x100 }, { ip := 0x100, memaddr := some 0x2000, width := some 1, accesstype := some .read },
    { ip := 0x104, timeDelta := some 5 }]

/-- The read is inserted when the trace start is already known, so that its interval begins at time 5; and an
access before the first instruction is not imported at all. -/
theorem advanced_begins_late :
    (∀ ev ∈ readAtTimeZero, (straightLine.find ev).isSome = true) ∧
      (sharedRows (copyToDatabase { addressBits := 32 } .memory readAtTimeZero)).map
          (fun rows => rows.map fun row => (row.time1, row.time2, row.isFake)) =
        some [(0, 0, false), (1, 5, true)] ∧
      (sharedRows (AdvancedMemoryImporter.copyToDatabase { addressBits := 32 } straightLine readAtTimeZero)).map
          (fun rows => rows.map fun row => (row.time1, row.time2, row.isFake)) =
        some [(5, 0, false), (1, 5, true)] ∧
      (sharedRows (copyToDatabase { addressBits := 32 } .memory readAtTimeZero.tail)).isSome = true ∧
      sharedRows (AdvancedMemoryImporter.copyToDatabase { addressBits := 32 } straightLine readAtTimeZero.tail) =
        none := by
  refine ⟨by decide, by decide +kernel, by decide +kernel, by decide +kernel, ?_⟩
  exact Option.map_eq_none_iff.mpr (Option.isNone_iff_eq_none.mp (by decide +kernel))

/-- A byte is written and read before time passes; write ECs are left out. -/
def writeAtTimeZero : List TraceEvent :=
  [{ ip := 0x100 }, { ip := 0x100, memaddr := some 0x2000, width := some 1, accesstype := some .write },
    { ip := 0x104 }, { ip := 0x104, memaddr := some 0x2000, width := some 1, accesstype := some .read },
    { ip := 0x108, timeDelta := some 5 }]

/-- The read is delayed over the first time delta, but its interval begins with the write. -/
theorem advanced_refines_memory_writeAtTimeZero :
    sharedRows (AdvancedMemoryImporter.copyToDatabase { addressBits := 32, importWriteEcs := false } straightLine
        writeAtTimeZero) =
      sharedRows (copyToDatabase { addressBits := 32, importWriteEcs := false } .memory writeAtTimeZero) := by
  refine (advanced_refines_memory (fun _ _ => rfl) (by decide)).mpr (Or.inr ⟨?_, Or.inr ?_⟩)
  · intro ev hev
    obtain rfl := Option.some.inj hev
    rfl
  · intro front ev mid hsplit hmem himports _ a ha
    have hearly : early writeAtTimeZero = writeAtTimeZero.take 4 := by decide
    rw [hearly] at hsplit
    -- the events before the first time delta, one after the other
    rcases front with _ | ⟨e₀, _ | ⟨e₁, _ | ⟨e₂, _ | ⟨e₃, front⟩⟩⟩⟩ <;>
      simp [writeAtTimeZero] at hsplit
    · obtain ⟨rfl, -⟩ := hsplit
      cases hmem
    · obtain ⟨-, rfl, -⟩ := hsplit
      cases himports
    · obtain ⟨-, -, rfl, -⟩ := hsplit
      cases hmem
    · obtain ⟨rfl, rfl, rfl, rfl, rfl⟩ := hsplit
      exact ⟨_, List.mem_cons_of_mem _ List.mem_cons_self, ha⟩

end FailStar.ImportTrace
