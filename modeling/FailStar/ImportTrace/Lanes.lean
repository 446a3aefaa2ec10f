import FailStar.Foundations.OrderedMap
import FailStar.ImportTrace.TraceTime

/-! # The lanes of an import

A row of the `trace` table spans dynamic instructions and time. The rows of an address are the pieces of its
lane: every byte of the inner loop is one `Lane.stamp`, and `close_ec_intervals` closes every lane.

* **`Timed`** — the importer is in the state the lanes of the addresses are in.
* **`Stamps`** — a part of the import that stamps addresses; the loops and the concrete importers are
  composed of such parts.
* **`copyToDatabase_cuts`** — the rows of a whole import. -/

namespace FailStar.ImportTrace

open Std (TreeMap)

variable {events : List TraceEvent} {ev : TraceEvent} {cfg : Config} {kind : Kind}

/-! ## The importer keeps the lanes -/

/-- A row on the two axes. -/
def TraceRow.cut (row : TraceRow) : Cut := ⟨row.instr1, row.instr2, row.time1, row.time2⟩

/-- The pieces that belong to an address. -/
def cutsAt (labelled : List (ℕ × TraceRow)) (a : ℕ) : List Cut :=
  (labelled.filter fun r => r.1 = a).map fun r => r.2.cut

theorem cutsAt_concat (labelled : List (ℕ × TraceRow)) (a a' : ℕ) (row : TraceRow) :
    cutsAt (labelled ++ [(a, row)]) a' =
      if a = a' then cutsAt labelled a' ++ [row.cut] else cutsAt labelled a' := by
  rw [cutsAt, map_filter_fst_concat]
  rfl

/-- The rows of the importer, labelled with the addresses they belong to: the column `data_address` has only
32 bit of an address. -/
structure Labels (labelled : List (ℕ × TraceRow)) (st : Importer) : Prop where
  rows : st.rows = labelled.map Prod.snd
  column : ∀ r ∈ labelled, r.2.dataAddress = r.1 % 2 ^ 32

/-- **The importer keeps the lanes** of the touched addresses. -/
structure Timed (touched : List (ℕ × Stamp)) (labelled : List (ℕ × TraceRow)) (st : Importer) : Prop extends
    Labels labelled st where
  cuts : ∀ a, cutsAt labelled a = (laneAt touched a).cuts
  openInstr : ∀ a, (st.openEcs[a]?.getD {}).dyninstr = (laneAt touched a).openInstr
  openTime : ∀ a, (st.openEcs[a]?.getD {}).time = (laneAt touched a).openTime
  keys : ∀ a, a ∈ st.openEcs ↔ ∃ x ∈ touched, x.1 = a

variable {touched : List (ℕ × Stamp)} {labelled : List (ℕ × TraceRow)} {st st' : Importer} {a curtime instr : ℕ}
  {matching : ℕ → Bool}

theorem timed_init : Timed [] [] {} := by
  refine ⟨⟨rfl, by simp⟩, fun a => rfl, fun a => ?_, fun a => ?_, fun a => ?_⟩
  · simp [laneAt, stampsAt, lane]
  · simp [laneAt, stampsAt, lane]
  · simp

/-- With write ECs, `add_trace_event` inserts its row if it succeeds. -/
theorem eq_of_addTraceEvent (hwrites : cfg.importWriteEcs = true) {left right : Margin} {isFake : Bool}
    (h : st.addTraceEvent cfg left right ev isFake = some st') :
    st' = { st with rows := st.rows ++ [Importer.traceRow cfg left right ev isFake] } := by
  rw [Importer.addTraceEvent, if_neg (by simp [hwrites])] at h
  by_cases hinsert : cfg.insertMultiple st.rows (Importer.traceRow cfg left right ev isFake) = true
  · exact (Option.some.inj ((if_pos hinsert).symm.trans h)).symm
  · exact absurd ((if_neg hinsert).symm.trans h) (by simp)

theorem Labels.insert (h : Labels labelled st) {row : TraceRow} (hrow : row.dataAddress = a % 2 ^ 32)
    (hst' : st'.rows = st.rows ++ [row]) : Labels (labelled ++ [(a, row)]) st' := by
  refine ⟨by rw [hst', h.rows, List.map_append]; rfl, fun r hr => ?_⟩
  rcases List.mem_append.mp hr with hr | hr
  · exact h.column r hr
  · rw [List.mem_singleton.mp hr]
    exact hrow

theorem Timed.keys_concat (h : Timed touched labelled st) (a a' : ℕ) (x : Stamp) :
    a' = a ∨ a' ∈ st.openEcs ↔ ∃ y ∈ touched ++ [(a, x)], y.1 = a' := by
  rw [h.keys]
  constructor
  · rintro (rfl | ⟨y, hy, rfl⟩)
    · exact ⟨(a', x), by simp, rfl⟩
    · exact ⟨y, List.mem_append_left _ hy, rfl⟩
  · rintro ⟨y, hy, rfl⟩
    rcases List.mem_append.mp hy with hy | hy
    · exact .inr ⟨y, hy, rfl⟩
    · exact .inl (congrArg Prod.fst (List.mem_singleton.mp hy))

theorem Timed.skip (h : Timed touched labelled st) {x : Stamp} (hlt : x.instr < (laneAt touched a).openInstr) :
    Timed (touched ++ [(a, x)]) labelled (st.getOpenEC a).2 := by
  have hlane : ∀ a', laneAt (touched ++ [(a, x)]) a' = laneAt touched a' := by
    intro a'
    rw [laneAt_concat]
    split
    · rename_i heq
      rw [← heq, Lane.stamp, if_neg (Nat.not_le.mpr hlt)]
    · rfl
  refine ⟨⟨h.rows, h.column⟩, fun a' => ?_, fun a' => ?_, fun a' => ?_, fun a' => ?_⟩
  · rw [hlane, h.cuts]
  · rw [hlane, getD_getOpenEC, h.openInstr]
  · rw [hlane, getD_getOpenEC, h.openTime]
  · rw [mem_getOpenEC, h.keys_concat a a']

/-- A stamp that ends a piece, and the row of the piece. -/
theorem Timed.insert (h : Timed touched labelled st) {x : Stamp} {row : TraceRow} {ip : ℕ}
    (hle : (laneAt touched a).openInstr ≤ x.instr) (hinstr : x.instr + 1 < 2 ^ 32)
    (hrow : row.dataAddress = a % 2 ^ 32)
    (hcut : row.cut = ⟨(laneAt touched a).openInstr, x.instr,
      if (laneAt touched a).openTime = 0 then x.start else (laneAt touched a).openTime, x.time⟩) :
    Timed (touched ++ [(a, x)]) (labelled ++ [(a, row)])
      (Importer.newOpenEC { (st.getOpenEC a).2 with rows := st.rows ++ [row] } a ((x.time + 1) % 2 ^ 64)
        ((x.instr + 1) % 2 ^ 32) ip) := by
  have hlane : ∀ a', laneAt (touched ++ [(a, x)]) a' =
      if a' = a then ⟨x.instr + 1, (x.time + 1) % 2 ^ 64, (laneAt touched a').cuts ++ [row.cut]⟩
      else laneAt touched a' := by
    intro a'
    rw [laneAt_concat]
    by_cases heq : a = a'
    · rw [if_pos heq, if_pos heq.symm, ← heq, Lane.stamp, if_pos hle, hcut]
    · rw [if_neg heq, if_neg (Ne.symm heq)]
  refine ⟨h.toLabels.insert hrow rfl, fun a' => ?_, fun a' => ?_, fun a' => ?_, fun a' => ?_⟩
  · rw [hlane, cutsAt_concat, h.cuts]
    by_cases heq : a = a'
    · rw [if_pos heq, if_pos heq.symm]
    · rw [if_neg heq, if_neg (Ne.symm heq)]
  · rw [hlane, getD_newOpenEC, Nat.mod_eq_of_lt hinstr]
    split
    · rfl
    · exact (congrArg Margin.dyninstr (getD_getOpenEC st a a')).trans (h.openInstr a')
  · rw [hlane, getD_newOpenEC]
    split
    · rfl
    · exact (congrArg Margin.time (getD_getOpenEC st a a')).trans (h.openTime a')
  · rw [mem_newOpenEC, ← h.keys_concat a a']
    refine (or_congr_right (mem_getOpenEC st a a')).trans ?_
    rw [← or_assoc, or_self]

/-- **One byte of the inner loop is one stamp.** -/
theorem Timed.addByte (h : Timed touched labelled st) (hwrites : cfg.importWriteEcs = true)
    (hm : matching a = true) {x : Stamp} (hstart : x.start = st.timeTraceStart)
    (hinstr : x.instr + 1 < 2 ^ 32) {width : ℕ}
    (hstep : st.addByte cfg matching x.time x.instr ev width a = some st') :
    st'.timeTraceStart = st.timeTraceStart ∧ ∃ labelled', Timed (touched ++ [(a, x)]) labelled' st' := by
  have hleft : (st.getOpenEC a).1.dyninstr = (laneAt touched a).openInstr := h.openInstr a
  rw [addByte_of_matching hm, hleft] at hstep
  by_cases hlt : x.instr < (laneAt touched a).openInstr
  · -- zero-sized intervals are skipped
    rw [if_pos hlt] at hstep
    obtain rfl := Option.some.inj hstep
    exact ⟨rfl, labelled, h.skip hlt⟩
  · rw [if_neg hlt] at hstep
    obtain ⟨st₁, hst₁, rfl⟩ := Option.map_eq_some_iff.mp hstep
    obtain rfl := eq_of_addTraceEvent hwrites hst₁
    refine ⟨rfl, _, h.insert (Nat.not_lt.mp hlt) hinstr rfl ?_⟩
    rw [hstart, ← h.openInstr, ← h.openTime]
    rfl

/-- The importer gets from `st` to `st'` by stamping addresses. -/
def Stamps (x : Stamp) (as : List ℕ) (st st' : Importer) : Prop :=
  ∀ touched labelled, x.start = st.timeTraceStart → Timed touched labelled st →
    st'.timeTraceStart = st.timeTraceStart ∧
      ∃ labelled', Timed (touched ++ as.map fun a => (a, x)) labelled' st'

variable {x : Stamp}

theorem Stamps.refl (x : Stamp) (st : Importer) : Stamps x [] st st := by
  intro touched labelled _ h
  refine ⟨rfl, labelled, ?_⟩
  rwa [List.map_nil, List.append_nil]

theorem Stamps.trans {as bs : List ℕ} {st₁ st₂ st₃ : Importer} (h₁ : Stamps x as st₁ st₂)
    (h₂ : Stamps x bs st₂ st₃) : Stamps x (as ++ bs) st₁ st₃ := by
  intro touched labelled hstart h
  obtain ⟨hstart₁, labelled₁, htimed₁⟩ := h₁ touched labelled hstart h
  obtain ⟨hstart₂, labelled₂, htimed₂⟩ := h₂ _ labelled₁ (hstart.trans hstart₁.symm) htimed₁
  refine ⟨hstart₂.trans hstart₁, labelled₂, ?_⟩
  rwa [List.map_append, ← List.append_assoc]

theorem stamps_foldlM {α : Type*} {f : Importer → α → Option Importer} {as : α → List ℕ}
    (hf : ∀ st st' y, f st y = some st' → Stamps x (as y) st st') {ys : List α}
    (h : ys.foldlM f st = some st') : Stamps x (ys.flatMap as) st st' := by
  induction ys generalizing st with
  | nil =>
    obtain rfl := Option.some.inj h
    exact Stamps.refl x st
  | cons y ys ih =>
    rw [List.foldlM_cons] at h
    obtain ⟨st₁, hst₁, hrest⟩ := Option.bind_eq_some_iff.mp h
    rw [List.flatMap_cons]
    exact (hf st st₁ y hst₁).trans (ih hrest)

/-- **The loop over all accessed bytes.** -/
theorem stamps_addBytes (hwrites : cfg.importWriteEcs = true) (hinstr : x.instr + 1 < 2 ^ 32) {width lo hi : ℕ}
    (h : st.addBytes cfg matching x.time x.instr ev width lo hi = some st') :
    Stamps x ((List.range' lo (hi - lo)).filter matching) st st' := by
  have hfilter : ∀ l : List ℕ, l.filter matching = l.flatMap fun a => if matching a then [a] else [] := by
    intro l
    induction l with
    | nil => rfl
    | cons a l ih =>
      rw [List.filter_cons, List.flatMap_cons, ih]
      split <;> rfl
  rw [hfilter]
  refine stamps_foldlM (fun st st' a hst' => ?_) h
  by_cases hm : matching a = true
  · rw [if_pos hm]
    intro touched labelled hstart h
    exact h.addByte hwrites hm hstart hinstr hst'
  · rw [if_neg hm]
    rw [Importer.addByte, if_neg hm] at hst'
    obtain rfl := Option.some.inj hst'
    exact Stamps.refl x st

/-! ## The concrete importers -/

theorem RegisterImporter.stamps_addRegisterTrace {imp : RegisterImporter} (hwrites : cfg.importWriteEcs = true)
    (hinstr : x.instr + 1 < 2 ^ 32) {type : AccessType} {info : RegInfo}
    (h : imp.addRegisterTrace cfg x.time x.instr ev type st info = some st') :
    Stamps x (imp.bytesOf cfg ev info) st st' := by
  rw [RegisterImporter.bytesOf]
  rw [RegisterImporter.addRegisterTrace] at h
  split at h
  · rename_i hsplit
    rw [if_pos hsplit]
    exact stamps_addBytes hwrites hinstr h
  · rename_i hsplit
    rw [if_neg hsplit]
    exact stamps_addBytes hwrites hinstr h

theorem RegisterImporter.stamps_addRegister {imp : RegisterImporter} (hwrites : cfg.importWriteEcs = true)
    (hinstr : x.instr + 1 < 2 ^ 32) {type : AccessType} {reg : ℕ}
    (h : imp.addRegister cfg x.time x.instr ev type st reg = some st') :
    Stamps x (imp.registerBytes cfg ev reg) st st' := by
  rw [RegisterImporter.registerBytes]
  rw [RegisterImporter.addRegister] at h
  cases hinfo : imp.getFailRegisterInfo reg with
  | none =>
    rw [hinfo] at h
    obtain rfl := Option.some.inj h
    exact Stamps.refl x st
  | some info =>
    simp only [hinfo] at h ⊢
    split at h
    · rename_i hid
      rw [if_pos hid]
      exact stamps_addRegisterTrace hwrites hinstr h
    · rename_i hid
      rw [if_neg hid]
      obtain rfl := Option.some.inj h
      exact Stamps.refl x st

theorem RegisterImporter.stamps_addInstructionPointer {imp : RegisterImporter}
    (hwrites : cfg.importWriteEcs = true) (hinstr : x.instr + 1 < 2 ^ 32)
    (h : imp.addInstructionPointer cfg x.time x.instr ev st = some st') :
    Stamps x (imp.pcBytes cfg ev) st st' := by
  rw [RegisterImporter.pcBytes]
  rw [RegisterImporter.addInstructionPointer] at h
  split at h
  · rename_i hip
    rw [if_pos hip]
    obtain ⟨st₁, hread, hwrite⟩ := Option.bind_eq_some_iff.mp h
    exact (stamps_addRegisterTrace hwrites hinstr hread).trans (stamps_addRegisterTrace hwrites hinstr hwrite)
  · rename_i hip
    rw [if_neg hip]
    obtain rfl := Option.some.inj h
    exact Stamps.refl x st

theorem RegisterImporter.stamps_handleIpEvent {imp : RegisterImporter} (hwrites : cfg.importWriteEcs = true)
    (hinstr : x.instr + 1 < 2 ^ 32) (h : imp.handleIpEvent cfg st x.time x.instr ev = some st') :
    Stamps x (imp.pcBytes cfg ev ++ imp.operandBytes cfg ev) st st' := by
  obtain ⟨st₁, hpc, h⟩ := Option.bind_eq_some_iff.mp h
  refine (stamps_addInstructionPointer hwrites hinstr hpc).trans ?_
  rw [RegisterImporter.operandBytes]
  cases hfind : imp.instrMap.find ev with
  | none =>
    rw [hfind] at h
    obtain rfl := Option.some.inj h
    exact Stamps.refl x st₁
  | some opcode =>
    simp only [hfind] at h ⊢
    obtain ⟨st₂, huses, hdefs⟩ := Option.bind_eq_some_iff.mp h
    have hregister : ∀ (type : AccessType) (st st' : Importer) (reg : ℕ),
        imp.addRegister cfg x.time x.instr ev type st reg = some st' →
          Stamps x (imp.registerBytes cfg ev reg) st st' := by
      intro type st st' reg hst'
      exact stamps_addRegister hwrites hinstr hst'
    exact (stamps_foldlM (hregister .read) huses).trans (stamps_foldlM (hregister .write) hdefs)

/-- **An event stamps its bytes**, in any importer. -/
theorem Kind.stamps_handleMemEvent (hwrites : cfg.importWriteEcs = true) (hinstr : x.instr + 1 < 2 ^ 32)
    (hmem : ev.hasMemaddr = true) (h : kind.handleMemEvent cfg st x.time x.instr ev = some st') :
    Stamps x (kind.bytes cfg ev) st st' := by
  cases kind with
  | memory =>
    rw [Kind.bytes, if_pos hmem]
    exact stamps_addBytes hwrites hinstr h
  | instruction instrMap =>
    rw [Kind.bytes, if_pos hmem]
    obtain rfl := Option.some.inj h
    exact Stamps.refl x st
  | register imp =>
    rw [Kind.bytes, if_pos hmem]
    obtain rfl := Option.some.inj h
    exact Stamps.refl x st

@[inherit_doc Kind.stamps_handleMemEvent]
theorem Kind.stamps_handleIpEvent (hwrites : cfg.importWriteEcs = true) (hinstr : x.instr + 1 < 2 ^ 32)
    (hmem : ¬ ev.hasMemaddr = true) (h : kind.handleIpEvent cfg st x.time x.instr ev = some st') :
    Stamps x (kind.bytes cfg ev) st st' := by
  cases kind with
  | memory =>
    rw [Kind.bytes, if_neg hmem]
    obtain rfl := Option.some.inj h
    exact Stamps.refl x st
  | instruction instrMap =>
    rw [Kind.bytes, if_neg hmem]
    rw [Kind.handleIpEvent, InstructionImporter.handleIpEvent] at h
    cases hfind : instrMap.find ev with
    | none =>
      rw [hfind] at h
      obtain rfl := Option.some.inj h
      exact Stamps.refl x st
    | some opcode =>
      simp only [hfind] at h
      exact stamps_addBytes hwrites hinstr h
  | register imp =>
    rw [Kind.bytes, if_neg hmem]
    exact RegisterImporter.stamps_handleIpEvent hwrites hinstr h

/-! ## The loop over the trace -/

/-- The variables of the loop behind some events. -/
structure Clocked (events : List TraceEvent) (p : Progress) : Prop where
  time : p.curtime = traceTime events
  start : p.st.timeTraceStart = traceStart events
  instr : p.instr = instructionCount events
  memaccess : p.instrMemaccess = instructionCount events - 1
  bound : p.instr < 2 ^ 32

variable {p p' : Progress}

theorem Clocked.advanceTime (h : Clocked events p) (htime : traceTime (events ++ [ev]) < 2 ^ 64)
    (hstep : advanceTime p ev = some p') :
    p'.curtime = traceTime (events ++ [ev]) ∧
      p'.st = { p.st with timeTraceStart := traceStart (events ++ [ev]) } ∧
      p'.instr = p.instr ∧ p'.instrMemaccess = p.instrMemaccess := by
  rw [traceTime_concat] at htime ⊢
  rw [traceStart_concat]
  rw [ImportTrace.advanceTime] at hstep
  cases hdelta : ev.timeDelta with
  | none =>
    rw [hdelta] at hstep
    obtain rfl := Option.some.inj hstep
    have hsince : timeSince ev = 0 := by simp [timeSince, hdelta]
    have hstart : (if traceStart events = 0 then 0 else traceStart events) = p.st.timeTraceStart := by
      rw [h.start]
      split <;> omega
    rw [hsince, h.time, hstart]
    exact ⟨rfl, rfl, rfl, rfl⟩
  | some delta =>
    have hsince : timeSince ev = delta.toNat := by simp [timeSince, hdelta]
    simp only [hdelta] at hstep
    split at hstep
    · obtain rfl := Option.some.inj hstep
      rw [hsince] at htime ⊢
      refine ⟨?_, ?_, rfl, rfl⟩
      · rw [h.time]
        exact Nat.mod_eq_of_lt htime
      · rw [h.start]
    · cases hstep

/-- **One event.** -/
theorem Clocked.importEvent (h : Clocked events p) (hwrites : cfg.importWriteEcs = true)
    (htime : traceTime (events ++ [ev]) < 2 ^ 64) (htimed : Timed (touches cfg kind events) labelled p.st)
    (hstep : importEvent cfg kind p ev = some p') :
    Clocked (events ++ [ev]) p' ∧ ∃ labelled', Timed (touches cfg kind (events ++ [ev])) labelled' p'.st := by
  obtain ⟨p₁, hp₁, hstep⟩ := Option.bind_eq_some_iff.mp hstep
  obtain ⟨htime₁, hst₁, hinstr₁, hmemaccess₁⟩ := h.advanceTime htime hp₁
  have htimed₁ : Timed (touches cfg kind events) labelled p₁.st := by
    rw [hst₁]
    exact ⟨⟨htimed.rows, htimed.column⟩, htimed.cuts, htimed.openInstr, htimed.openTime, htimed.keys⟩
  have hstart₁ : (stampOf events ev).start = p₁.st.timeTraceStart := by
    rw [hst₁]
    rfl
  have hbound := h.bound
  rw [h.instr] at hbound
  rw [touches_concat]
  -- a memory event has the number of the instruction before it, an instruction the next one
  by_cases hmem : ev.hasMemaddr = true
  · rw [if_pos hmem] at hstep
    obtain ⟨st₂, hst₂, rfl⟩ := Option.map_eq_some_iff.mp hstep
    have hinstr : (stampOf events ev).instr = p₁.instrMemaccess := by
      rw [stampOf, hmemaccess₁, h.memaccess]
      exact if_pos hmem
    have hcount : instructionCount (events ++ [ev]) = instructionCount events := by
      rw [instructionCount_concat, if_pos hmem]
      rfl
    rw [htime₁, ← hinstr] at hst₂
    have hlt : (stampOf events ev).instr + 1 < 2 ^ 32 := by
      rw [hinstr, hmemaccess₁, h.memaccess]
      omega
    obtain ⟨hstart₂, labelled', htimed₂⟩ :=
      Kind.stamps_handleMemEvent hwrites hlt hmem hst₂ _ _ hstart₁ htimed₁
    refine ⟨⟨htime₁, hstart₂.trans hstart₁.symm, ?_, ?_, ?_⟩, labelled', htimed₂⟩
    · exact hinstr₁.trans (h.instr.trans hcount.symm)
    · rw [hcount]
      exact hmemaccess₁.trans h.memaccess
    · exact hinstr₁ ▸ h.bound
  · rw [if_neg hmem] at hstep
    split at hstep
    · cases hstep
    · rename_i hnotlast
      obtain ⟨st₂, hst₂, rfl⟩ := Option.map_eq_some_iff.mp hstep
      have hinstr : (stampOf events ev).instr = p₁.instr := by
        rw [stampOf, hinstr₁, h.instr]
        exact if_neg hmem
      have hcount : instructionCount (events ++ [ev]) = instructionCount events + 1 := by
        rw [instructionCount_concat, if_neg hmem]
      have hinstr' : p₁.instr = instructionCount events := hinstr₁.trans h.instr
      rw [htime₁, ← hinstr] at hst₂
      have hlt : (stampOf events ev).instr + 1 < 2 ^ 32 := by
        rw [hinstr]
        omega
      obtain ⟨hstart₂, labelled', htimed₂⟩ :=
        Kind.stamps_handleIpEvent hwrites hlt hmem hst₂ _ _ hstart₁ htimed₁
      refine ⟨⟨htime₁, hstart₂.trans hstart₁.symm, ?_, ?_, ?_⟩, labelled', htimed₂⟩
      · rw [hcount, ← hinstr']
      · rw [hcount]
        exact hinstr'
      · simp only
        omega

/-- **The loop over the trace** stamps the bytes of the trace. -/
theorem importEvents_timed (hwrites : cfg.importWriteEcs = true) (htime : traceTime events < 2 ^ 64)
    (h : events.foldlM (importEvent cfg kind) {} = some p) :
    Clocked events p ∧ ∃ labelled, Timed (touches cfg kind events) labelled p.st := by
  induction events using List.reverseRecOn generalizing p with
  | nil =>
    obtain rfl := Option.some.inj h
    exact ⟨⟨rfl, rfl, rfl, rfl, by decide⟩, [], timed_init⟩
  | append_singleton events ev ih =>
    rw [List.foldlM_append] at h
    obtain ⟨p₁, hp₁, hstep⟩ := Option.bind_eq_some_iff.mp h
    have htime₁ : traceTime events < 2 ^ 64 := by
      rw [traceTime_concat] at htime
      omega
    obtain ⟨hclocked, labelled, htimed⟩ := ih htime₁ hp₁
    rw [List.foldlM_cons] at hstep
    obtain ⟨p₂, hp₂, hnil⟩ := Option.bind_eq_some_iff.mp hstep
    obtain rfl := Option.some.inj hnil
    exact hclocked.importEvent hwrites htime htimed hp₂

/-! ## The end of the trace -/

/-- The addresses that have rows: those that were touched, and the unused ones of the memory map. -/
def importedAddresses (cfg : Config) (kind : Kind) (events : List TraceEvent) : List ℕ :=
  (touches cfg kind events).map Prod.fst ++ kind.unusedAddresses cfg

/-- The lane of an address when the trace has ended. The lane of an unused address begins with the trace. -/
def finalLane (touched : List (ℕ × Stamp)) (start a : ℕ) : Lane :=
  if stampsAt touched a = [] then { openTime := start } else laneAt touched a

/-- `m_last_instr`. -/
def lastInstrOf (events : List TraceEvent) : ℕ := (instructionCount events + (2 ^ 32 - 1)) % 2 ^ 32

theorem stampsAt_eq_nil : stampsAt touched a = [] ↔ ¬ ∃ x ∈ touched, x.1 = a := by
  rw [stampsAt, List.map_eq_nil_iff, List.filter_eq_nil_iff]
  simp only [decide_eq_true_eq, not_exists, not_and]

theorem mem_importedAddresses : a ∈ importedAddresses cfg kind events ↔
    (∃ x ∈ touches cfg kind events, x.1 = a) ∨ a ∈ kind.unusedAddresses cfg := by
  rw [importedAddresses, List.mem_append, List.mem_map]

theorem finalLane_cuts (touched : List (ℕ × Stamp)) (start a : ℕ) :
    (finalLane touched start a).cuts = (laneAt touched a).cuts := by
  rw [finalLane]
  split
  · rename_i hnil
    rw [laneAt, hnil]
    rfl
  · rfl

/-- All lanes are open that will be closed. -/
structure AllOpen (touched : List (ℕ × Stamp)) (listed : List ℕ) (labelled : List (ℕ × TraceRow))
    (st : Importer) : Prop extends Labels labelled st where
  cuts : ∀ a, cutsAt labelled a = (laneAt touched a).cuts
  margin : ∀ a m, st.openEcs[a]? = some m →
    m.dyninstr = (finalLane touched st.timeTraceStart a).openInstr ∧
      m.time = (finalLane touched st.timeTraceStart a).openTime
  keys : ∀ a, a ∈ st.openEcs ↔ (∃ x ∈ touched, x.1 = a) ∨ a ∈ listed

theorem Timed.allOpen (h : Timed touched labelled st) : AllOpen touched [] labelled st := by
  refine ⟨h.toLabels, h.cuts, fun a m hm => ?_, fun a => by simp [h.keys]⟩
  have htouched : ∃ x ∈ touched, x.1 = a := by
    rw [← h.keys, TreeMap.mem_iff_isSome_getElem?, hm]
    rfl
  rw [finalLane, if_neg fun hnil => stampsAt_eq_nil.mp hnil htouched, ← h.openInstr, ← h.openTime, hm]
  exact ⟨rfl, rfl⟩

theorem AllOpen.openUnused {listed : List ℕ} (h : AllOpen touched listed labelled st) (a : ℕ) :
    AllOpen touched (listed ++ [a]) labelled
      (if a ∈ st.openEcs then st else st.newOpenEC a st.timeTraceStart 0 0) := by
  by_cases hmem : a ∈ st.openEcs
  · rw [if_pos hmem]
    refine ⟨h.toLabels, h.cuts, h.margin, fun a' => ?_⟩
    rw [List.mem_append, List.mem_singleton, ← or_assoc, ← h.keys]
    exact ⟨.inl, fun h' => h'.elim id fun heq => heq ▸ hmem⟩
  · rw [if_neg hmem]
    refine ⟨⟨h.rows, h.column⟩, h.cuts, fun a' m hm => ?_, fun a' => ?_⟩
    · rw [Importer.newOpenEC, TreeMap.getElem?_insert] at hm
      split at hm
      · rename_i heq
        obtain rfl : a = a' := compare_eq_iff_eq.mp heq
        obtain rfl := Option.some.inj hm
        have huntouched : stampsAt touched a = [] :=
          stampsAt_eq_nil.mpr fun htouched => hmem ((h.keys a).mpr (.inl htouched))
        rw [finalLane, if_pos huntouched]
        exact ⟨rfl, rfl⟩
      · exact h.margin a' m hm
    · rw [mem_newOpenEC, h.keys, List.mem_append, List.mem_singleton]
      exact or_comm.trans or_assoc

/-- **`open_unused_ec_intervals`.** -/
theorem AllOpen.foldl_openUnused {listed as : List ℕ} (h : AllOpen touched listed labelled st) :
    AllOpen touched (listed ++ as) labelled
      (as.foldl (fun st a => if a ∈ st.openEcs then st else st.newOpenEC a st.timeTraceStart 0 0) st) := by
  induction as generalizing listed st with
  | nil => rwa [List.append_nil]
  | cons a as ih =>
    rw [List.foldl_cons, List.append_cons]
    exact ih (h.openUnused a)

/-- What `open_unused_ec_intervals` and `close_ec_intervals` do not change. -/
def SameEnd (st st' : Importer) : Prop :=
  st'.timeTraceStart = st.timeTraceStart ∧ st'.lastInstr = st.lastInstr ∧ st'.lastTime = st.lastTime

theorem sameEnd_openUnused (as : List ℕ) (st : Importer) :
    SameEnd st
      (as.foldl (fun st a => if a ∈ st.openEcs then st else st.newOpenEC a st.timeTraceStart 0 0) st) := by
  induction as generalizing st with
  | nil => exact ⟨rfl, rfl, rfl⟩
  | cons a as ih =>
    rw [List.foldl_cons]
    split
    · exact ih st
    · exact ih (st.newOpenEC a st.timeTraceStart 0 0)

/-- The piece that `close_ec_intervals` ends. -/
def closingCut (st : Importer) (m : Margin) : List Cut :=
  (⟨m.dyninstr, m.time, []⟩ : Lane).closing st.lastInstr st.lastTime

theorem Labels.close (h : Labels labelled st) (hwrites : cfg.importWriteEcs = true) {m : Margin}
    (hstep : closeEcInterval cfg st (a, m) = some st') :
    SameEnd st st' ∧ ∃ labelled', Labels labelled' st' ∧
      ∀ a', cutsAt labelled' a' = cutsAt labelled a' ++ if a = a' then closingCut st m else [] := by
  rw [closeEcInterval] at hstep
  by_cases hlt : st.lastInstr < m.dyninstr
  · obtain rfl := Option.some.inj ((if_pos hlt).symm.trans hstep)
    have hnone : closingCut st m = [] := if_pos hlt
    refine ⟨⟨rfl, rfl, rfl⟩, labelled, h, fun a' => ?_⟩
    rw [hnone, ite_self, List.append_nil]
  · have hst' := eq_of_addTraceEvent hwrites ((if_neg hlt).symm.trans hstep)
    have hone : closingCut st m = [⟨m.dyninstr, st.lastInstr, m.time, st.lastTime⟩] := if_neg hlt
    refine ⟨by rw [hst']; exact ⟨rfl, rfl, rfl⟩, labelled ++ [(a, _)], h.insert rfl (by rw [hst']), fun a' => ?_⟩
    rw [cutsAt_concat, hone]
    split
    · rfl
    · rw [List.append_nil]

/-- **`close_ec_intervals`**, over any list of open ECs. -/
theorem Labels.closeAll (hwrites : cfg.importWriteEcs = true) {es : List (ℕ × Margin)}
    (h : Labels labelled st) (hstep : es.foldlM (closeEcInterval cfg) st = some st') :
    SameEnd st st' ∧ ∃ labelled', Labels labelled' st' ∧
      ∀ a, cutsAt labelled' a =
        cutsAt labelled a ++ (es.filter fun e => e.1 = a).flatMap fun e => closingCut st e.2 := by
  induction es generalizing labelled st with
  | nil =>
    obtain rfl := Option.some.inj hstep
    exact ⟨⟨rfl, rfl, rfl⟩, labelled, h, fun a => (List.append_nil _).symm⟩
  | cons e es ih =>
    rw [List.foldlM_cons] at hstep
    obtain ⟨st₁, hst₁, hrest⟩ := Option.bind_eq_some_iff.mp hstep
    obtain ⟨hend₁, labelled₁, hlabels₁, hcuts₁⟩ := h.close hwrites hst₁
    obtain ⟨hend₂, labelled₂, hlabels₂, hcuts₂⟩ := ih hlabels₁ hrest
    have hsame : closingCut st₁ = closingCut st := by
      funext m
      rw [closingCut, closingCut, hend₁.2.1, hend₁.2.2]
    refine ⟨⟨hend₂.1.trans hend₁.1, hend₂.2.1.trans hend₁.2.1, hend₂.2.2.trans hend₁.2.2⟩, labelled₂,
      hlabels₂, fun a => ?_⟩
    rw [hcuts₂, hcuts₁, hsame, List.append_assoc, List.filter_cons]
    by_cases ha : e.1 = a
    · rw [if_pos ha, if_pos (decide_eq_true ha), List.flatMap_cons]
    · rw [if_neg ha, if_neg (by simpa using ha), List.nil_append]

/-- **The rows of an import** are the pieces of the lanes of the imported addresses. -/
theorem copyToDatabase_cuts (hwrites : cfg.importWriteEcs = true) (htime : traceTime events < 2 ^ 64)
    (h : copyToDatabase cfg kind events = some st) :
    st.timeTraceStart = traceStart events ∧ st.lastTime = traceTime events ∧
      instructionCount events < 2 ^ 32 ∧ ∃ labelled, Labels labelled st ∧ ∀ a, cutsAt labelled a =
        if a ∈ importedAddresses cfg kind events then
          (finalLane (touches cfg kind events) (traceStart events) a).closed (lastInstrOf events)
            (traceTime events)
        else [] := by
  obtain ⟨p, hp, hclose⟩ := Option.bind_eq_some_iff.mp h
  obtain ⟨hclocked, labelled, htimed⟩ := importEvents_timed hwrites htime hp
  have hended : Timed (touches cfg kind events) labelled (endTrace cfg p) :=
    ⟨⟨htimed.rows, htimed.column⟩, htimed.cuts, htimed.openInstr, htimed.openTime, htimed.keys⟩
  have hopen : AllOpen (touches cfg kind events) (kind.unusedAddresses cfg) labelled
      (openUnusedEcIntervals cfg kind (endTrace cfg p)) := hended.allOpen.foldl_openUnused
  obtain ⟨hstart₁, hinstr₁, htime₁⟩ : SameEnd (endTrace cfg p)
    (openUnusedEcIntervals cfg kind (endTrace cfg p)) :=
    sameEnd_openUnused _ _
  obtain ⟨⟨hstart₂, -, htime₂⟩, labelled', hlabels, hcuts⟩ := hopen.toLabels.closeAll hwrites hclose
  have hstart : (openUnusedEcIntervals cfg kind (endTrace cfg p)).timeTraceStart = traceStart events :=
    hstart₁.trans hclocked.start
  have hinstr : (openUnusedEcIntervals cfg kind (endTrace cfg p)).lastInstr = lastInstrOf events := by
    rw [hinstr₁, lastInstrOf, ← hclocked.instr]
    rfl
  have htime' : (openUnusedEcIntervals cfg kind (endTrace cfg p)).lastTime = traceTime events :=
    htime₁.trans hclocked.time
  refine ⟨hstart₂.trans hstart, htime₂.trans htime', hclocked.instr ▸ hclocked.bound, labelled', hlabels,
    fun a => ?_⟩
  -- what is open in the end are the imported addresses, and closing them cuts the rest of their lanes
  have hkeys := (hopen.keys a).trans mem_importedAddresses.symm
  rw [TreeMap.mem_iff_isSome_getElem?] at hkeys
  rw [hcuts, hopen.cuts, OrderedMap.filter_toList]
  cases hm : (openUnusedEcIntervals cfg kind (endTrace cfg p)).openEcs[a]? with
  | none =>
    have hnot : a ∉ importedAddresses cfg kind events := by
      rw [← hkeys, hm]
      exact Bool.false_ne_true
    have huntouched : stampsAt (touches cfg kind events) a = [] :=
      stampsAt_eq_nil.mpr fun htouched => hnot (mem_importedAddresses.mpr (.inl htouched))
    rw [if_neg hnot, laneAt, huntouched]
    rfl
  | some m =>
    have hin : a ∈ importedAddresses cfg kind events := by
      rw [← hkeys, hm]
      rfl
    obtain ⟨hopenInstr, hopenTime⟩ := hopen.margin a m hm
    rw [hstart] at hopenInstr hopenTime
    rw [if_pos hin, Lane.closed, finalLane_cuts, ← hinstr, ← htime', Lane.closing, ← hopenInstr, ← hopenTime]
    exact congrArg _ (List.append_nil _)

end FailStar.ImportTrace
