import FailStar.ImportTrace.FailedImports
import FailStar.Trace.TracingPlugin

/-! # From simulator time to trace time and back

`TracingPlugin` writes the time since the last event it has written, and leaves a zero out. The importers add
these deltas up. The events the plugin drops in between do not matter, as it only goes on from times it has
written.

* **`addDelta`** — what `copy_to_database` does with a delta; **`curtimes`** — the times behind the events of a
  trace.
* **`TracingPlugin.recordedTimes`** — the simulator times of the recorded events.
* **`curtimes_run`** — the two are the same; **`recorded_times_survive`** — for the importers. -/

namespace FailStar

open ImportTrace

/-! ## The two sides -/

/-- `curtime` behind an event. A `simtime_t` has 64 bits. -/
def ImportTrace.addDelta (curtime : ℕ) (ev : TraceEvent) : ℕ :=
  match ev.timeDelta with
  | none => curtime
  | some delta => (((curtime : ℤ) + delta) % 2 ^ 64).toNat

/-- **The values of `curtime`** with which the events of a trace are processed. -/
def ImportTrace.curtimes : ℕ → List TraceEvent → List ℕ
  | _, [] => []
  | curtime, ev :: events => addDelta curtime ev :: curtimes (addDelta curtime ev) events

namespace TracingPlugin

/-- The events the main loop looks at: the current instruction first, if instructions are traced. -/
def seen (plugin : TracingPlugin) (time ip : ℕ) (stream : List SimEvent) : List SimEvent :=
  if plugin.traceIp then .breakpoint time ip :: stream else stream

/-- **The simulator times of the recorded events.** -/
def recordedTimes (w : ℕ) (plugin : TracingPlugin) (events : List SimEvent) : List ℕ :=
  (events.filter fun ev => (plugin.message w ev).isSome).map SimEvent.time

/-! ## Recording and reading -/

variable {w : ℕ} {plugin : TracingPlugin} {prevtime curtime : ℕ} {e : TraceEvent}

theorem message_timeDelta {ev : SimEvent} (h : plugin.message w ev = some e) : e.timeDelta = none := by
  cases ev with
  | breakpoint time ip =>
    rw [message] at h
    split at h
    · rw [← Option.some.inj h]
    · cases h
  | memoryAccess time ip addr width accesstype => rw [message_memoryAccess h]

theorem stamp_snd (hprev : prevtime < 2 ^ 64) (hcur : curtime < 2 ^ 64) (e : TraceEvent) :
    (stamp prevtime curtime e).2 = curtime := by
  rw [stamp]
  split
  · rfl
  · rename_i hzero
    have hmod := Int.bmod_emod (x := (curtime : ℤ) - prevtime) (m := 2 ^ 64)
    rw [not_not.mp hzero] at hmod
    omega

/-- **A recorded event is processed at the time it was recorded at.** -/
theorem addDelta_stamp (hprev : prevtime < 2 ^ 64) (hcur : curtime < 2 ^ 64) (he : e.timeDelta = none) :
    addDelta prevtime (stamp prevtime curtime e).1 = curtime := by
  by_cases hdelta : Int.bmod ((curtime : ℤ) - prevtime) (2 ^ 64) ≠ 0
  · have hmod := Int.bmod_emod (x := (curtime : ℤ) - prevtime) (m := 2 ^ 64)
    rw [stamp, if_pos hdelta, addDelta]
    dsimp only
    omega
  · have hsame := stamp_snd hprev hcur e
    rw [stamp, if_neg hdelta] at hsame ⊢
    rw [addDelta, he]
    exact hsame

theorem curtimes_record (hprev : prevtime < 2 ^ 64) (events : List SimEvent)
    (hrange : ∀ ev ∈ events, ev.time < 2 ^ 64) :
    curtimes prevtime (plugin.record w prevtime events) = plugin.recordedTimes w events := by
  induction events generalizing prevtime with
  | nil => rfl
  | cons ev events ih =>
    have hev := hrange ev List.mem_cons_self
    have hevents : ∀ ev' ∈ events, ev'.time < 2 ^ 64 := fun ev' hev' => hrange ev' (List.mem_cons_of_mem _ hev')
    rw [record, recordedTimes]
    cases hmessage : plugin.message w ev with
    | none =>
      rw [List.filter_cons_of_neg (by simp [hmessage])]
      exact ih hprev hevents
    | some e =>
      rw [List.filter_cons_of_pos (by simp [hmessage]), List.map_cons]
      dsimp only
      rw [curtimes, stamp_snd hprev hev, addDelta_stamp hprev hev (message_timeDelta hmessage), ih hev hevents]
      rfl

/-- **The importer reads the times of the simulator.** -/
theorem curtimes_run (time ip : ℕ) (stream : List SimEvent)
    (hrange : ∀ ev ∈ plugin.seen time ip stream, ev.time < 2 ^ 64) :
    curtimes 0 (plugin.run w time ip stream) = plugin.recordedTimes w (plugin.seen time ip stream) :=
  curtimes_record (by norm_num) _ hrange

/-! ## The assertion -/

/-- The delta is not negative, unless more than half of the range of a `simtime_t` has passed. -/
theorem stamp_nonneg_iff (hle : prevtime ≤ curtime) (hcur : curtime < 2 ^ 64) (he : e.timeDelta = none) :
    (∀ delta ∈ (stamp prevtime curtime e).1.timeDelta, 0 ≤ delta) ↔ curtime < prevtime + 2 ^ 63 := by
  have hbmod : 0 ≤ Int.bmod ((curtime : ℤ) - prevtime) (2 ^ 64) ↔ curtime < prevtime + 2 ^ 63 := by
    rw [Int.bmod_def]
    split <;> omega
  rw [← hbmod, stamp]
  split
  · simp
  · rename_i hzero
    rw [he, not_not.mp hzero]
    simp

theorem nonneg_record_iff (events : List SimEvent) (hprev : prevtime < 2 ^ 64)
    (hrange : ∀ ev ∈ events, ev.time < 2 ^ 64)
    (hsorted : (prevtime :: events.map SimEvent.time).Pairwise (· ≤ ·)) :
    (∀ e ∈ plugin.record w prevtime events, ∀ delta ∈ e.timeDelta, 0 ≤ delta) ↔
      (prevtime :: plugin.recordedTimes w events).IsChain fun a b => b < a + 2 ^ 63 := by
  induction events generalizing prevtime with
  | nil => simp [record, recordedTimes]
  | cons ev events ih =>
    have hev := hrange ev List.mem_cons_self
    have hevents : ∀ ev' ∈ events, ev'.time < 2 ^ 64 := fun ev' hev' => hrange ev' (List.mem_cons_of_mem _ hev')
    rw [List.map_cons, List.pairwise_cons] at hsorted
    obtain ⟨hprevs, htimes⟩ := hsorted
    rw [record, recordedTimes]
    cases hmessage : plugin.message w ev with
    | none =>
      -- an event that is not recorded does not change `prevtime`
      rw [List.filter_cons_of_neg (by simp [hmessage])]
      refine ih hprev hevents (List.pairwise_cons.mpr ⟨fun t ht => hprevs t (List.mem_cons_of_mem _ ht), ?_⟩)
      exact (List.pairwise_cons.mp htimes).2
    | some e =>
      rw [List.filter_cons_of_pos (by simp [hmessage]), List.map_cons, List.isChain_cons_cons]
      dsimp only
      rw [List.forall_mem_cons, stamp_snd hprev hev,
        stamp_nonneg_iff (hprevs ev.time List.mem_cons_self) hev (message_timeDelta hmessage),
        ih hev hevents htimes]
      rfl

end TracingPlugin

/-! ## The importers -/

namespace ImportTrace

/-- The loop of `copy_to_database` behind some events. -/
def AnyImporter.eventsHandled (imp : AnyImporter) (cfg : Config) (events : List TraceEvent) : Option Progress :=
  match imp with
  | plain kind => events.foldlM (importEvent cfg kind) {}
  | advancedMemory instrMap =>
    (events.foldlM (AdvancedMemoryImporter.importEvent cfg instrMap) {}).map fun p => p.toProgress
  | randomJump imp => events.foldlM (imp.importEvent cfg) {}

variable {cfg : Config} {p q : Progress} {ev : TraceEvent} {events : List TraceEvent}

theorem curtime_advanceTime (h : advanceTime p ev = some q) : q.curtime = addDelta p.curtime ev := by
  unfold advanceTime at h
  rw [addDelta]
  cases htime : ev.timeDelta with
  | none =>
    rw [htime] at h
    rw [← Option.some.inj h]
  | some delta =>
    rw [htime] at h
    dsimp only at h ⊢
    split at h
    · rw [← Option.some.inj h]
      dsimp only
      omega
    · cases h

theorem curtime_importEvent {kind : Kind} (h : importEvent cfg kind p ev = some q) :
    q.curtime = addDelta p.curtime ev := by
  obtain ⟨p', htime, h⟩ := Option.bind_eq_some_iff.mp h
  rw [← curtime_advanceTime htime]
  split at h
  · obtain ⟨st, -, rfl⟩ := Option.map_eq_some_iff.mp h
    rfl
  · split at h
    · cases h
    · obtain ⟨st, -, rfl⟩ := Option.map_eq_some_iff.mp h
      rfl

theorem RandomJumpImporter.curtime_importEvent {imp : RandomJumpImporter}
    (h : imp.importEvent cfg p ev = some q) :
    q.curtime = addDelta p.curtime ev := by
  obtain ⟨p', htime, h⟩ := Option.bind_eq_some_iff.mp h
  rw [← curtime_advanceTime htime]
  split at h
  · rw [← Option.some.inj h]
  · split at h
    · cases h
    · obtain ⟨st, -, rfl⟩ := Option.map_eq_some_iff.mp h
      rfl

theorem AdvancedMemoryImporter.curtime_importEvent {instrMap : InstrMap} {p q : Delaying}
    (h : AdvancedMemoryImporter.importEvent cfg instrMap p ev = some q) : q.curtime = addDelta p.curtime ev := by
  obtain ⟨p', htime, h⟩ := Option.bind_eq_some_iff.mp h
  have hcurtime : p'.curtime = addDelta p.curtime ev := curtime_advanceTime htime
  rw [← hcurtime]
  split at h
  · obtain ⟨history, -, rfl⟩ := Option.map_eq_some_iff.mp h
    rfl
  · split at h
    · cases h
    · rw [← Option.some.inj h]

/-- A loop that adds the delta of each event adds all of them. -/
theorem curtime_foldlM {σ : Type*} {step : σ → TraceEvent → Option σ} {t : σ → ℕ}
    (hstep : ∀ {s s' ev}, step s ev = some s' → t s' = addDelta (t s) ev) {s s' : σ}
    (h : events.foldlM step s = some s') : t s' = events.foldl addDelta (t s) := by
  induction events generalizing s with
  | nil => rw [← Option.some.inj h]; rfl
  | cons ev events ih =>
    rw [List.foldlM_cons] at h
    obtain ⟨s₁, hs₁, h⟩ := Option.bind_eq_some_iff.mp h
    rw [ih h, hstep hs₁, List.foldl_cons]

theorem curtime_eventsHandled {imp : AnyImporter} (h : imp.eventsHandled cfg events = some p) :
    p.curtime = events.foldl addDelta 0 := by
  cases imp with
  | plain kind => exact curtime_foldlM (t := Progress.curtime) curtime_importEvent h
  | advancedMemory instrMap =>
    obtain ⟨p', hp', rfl⟩ := Option.map_eq_some_iff.mp h
    exact curtime_foldlM (t := fun p => p.curtime) AdvancedMemoryImporter.curtime_importEvent hp'
  | randomJump imp => exact curtime_foldlM (t := Progress.curtime) RandomJumpImporter.curtime_importEvent h

theorem curtimes_getElem? (curtime : ℕ) (front : List TraceEvent) (ev : TraceEvent) (back : List TraceEvent) :
    (curtimes curtime (front ++ ev :: back))[front.length]? =
      some (addDelta (front.foldl addDelta curtime) ev) := by
  induction front generalizing curtime with
  | nil => rfl
  | cons ev' front ih =>
    rw [List.cons_append, curtimes, List.length_cons, List.getElem?_cons_succ, ih]
    rfl

end ImportTrace

/-- **Trace times survive recording and import.** The deltas add up to the simulator times of the recorded
events, so that every importer processes an event with the time it was recorded at. The assertion that no delta
is negative holds unless a recorded event is 2⁶³ ticks behind the previous one or more. -/
theorem recorded_times_survive (w : ℕ) (plugin : TracingPlugin) (time ip : ℕ) (stream : List SimEvent)
    (hrange : ∀ ev ∈ plugin.seen time ip stream, ev.time < 2 ^ 64)
    (hsorted : ((plugin.seen time ip stream).map SimEvent.time).Pairwise (· ≤ ·)) :
    curtimes 0 (plugin.run w time ip stream) = plugin.recordedTimes w (plugin.seen time ip stream) ∧
      (∀ (imp : AnyImporter) (cfg : Config) (front : List TraceEvent) (ev : TraceEvent) (back : List TraceEvent)
          (p q : Progress), plugin.run w time ip stream = front ++ ev :: back →
            imp.eventsHandled cfg front = some p →
          advanceTime p ev = some q →
            (plugin.recordedTimes w (plugin.seen time ip stream))[front.length]? = some q.curtime) ∧
      ((∀ e ∈ plugin.run w time ip stream, ∀ delta ∈ e.timeDelta, 0 ≤ delta) ↔
        (0 :: plugin.recordedTimes w (plugin.seen time ip stream)).IsChain fun a b => b < a + 2 ^ 63) := by
  have htimes := TracingPlugin.curtimes_run (w := w) time ip stream hrange
  refine ⟨htimes, fun imp cfg front ev back p q hsplit hp hq => ?_, ?_⟩
  · rw [← htimes, hsplit, curtimes_getElem?, curtime_advanceTime hq, curtime_eventsHandled hp]
  · exact TracingPlugin.nonneg_record_iff _ (by norm_num) hrange
      (List.pairwise_cons.mpr ⟨fun _ _ => Nat.zero_le _, hsorted⟩)

/-- Two accesses of which the first one is not recorded: the second one still gets its time. -/
theorem recorded_times_survive_filtered :
    curtimes 0 (TracingPlugin.run 32 { memMap := some {0x2000} } 5 0x100
        [.memoryAccess 7 0x100 0x3000 4 .read, .memoryAccess 9 0x100 0x2000 1 .write]) = [5, 9] :=
  (recorded_times_survive 32 { memMap := some {0x2000} } 5 0x100
    [.memoryAccess 7 0x100 0x3000 4 .read, .memoryAccess 9 0x100 0x2000 1 .write] (by decide)
      (by decide)).1.trans
    (by decide)

end FailStar
