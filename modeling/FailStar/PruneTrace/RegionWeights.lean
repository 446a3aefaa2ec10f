import FailStar.ImportTrace.MemoryRows
import FailStar.PruneTrace.CallRegionPruner

/-! # The reads of a region

`exportRegions` weighs the regions of a variant with the equivalence classes that start in them. The times of a
region are those of its first and last instruction; an equivalence class starts one tick behind an access, which
may be between two regions, or at a time with instructions of several regions.

* **`InOneRegion`** — where a class may start.
* **`pairwise_traceStream`** — time does not go backwards; **`countP_startsIn`** — the regions around a point in
  time.
* **`reads_accounted_once_iff`** — when the regions account for every read exactly once. -/

namespace FailStar.PruneTrace.RegionPruner

open ImportTrace Std BasicBlockPruner

/-! ## Time -/

theorem addDelta_of_nonneg {curtime : ℕ} {ev : TraceEvent} (hdelta : ∀ delta ∈ ev.timeDelta, 0 ≤ delta)
    (htime : curtime + timeSince ev < 2 ^ 64) : addDelta curtime ev = curtime + timeSince ev := by
  unfold addDelta timeSince at *
  cases h : ev.timeDelta with
  | none => simp
  | some delta =>
    have hnonneg := hdelta delta h
    rw [h] at htime
    simp only [Option.getD_some] at htime ⊢
    omega

/-- **Time does not go backwards** along the instructions of a trace. -/
theorem pairwise_traceStream {trace : List TraceEvent} (hdelta : ∀ ev ∈ trace, ∀ delta ∈ ev.timeDelta, 0 ≤ delta)
    (instr : ℕ) {curtime : ℕ} (htime : curtime + traceTime trace < 2 ^ 64) :
    (traceStream instr curtime trace).Pairwise (fun e e' => e.dynamicTime ≤ e'.dynamicTime) ∧
      ∀ e ∈ traceStream instr curtime trace, curtime ≤ e.dynamicTime := by
  induction trace generalizing instr curtime with
  | nil => simp [traceStream]
  | cons ev trace ih =>
    obtain ⟨hev, hdelta⟩ := List.forall_mem_cons.mp hdelta
    have hsum : traceTime (ev :: trace) = timeSince ev + traceTime trace := by simp [traceTime]
    have hadd : addDelta curtime ev = curtime + timeSince ev := addDelta_of_nonneg hev (by omega)
    have hrest : curtime + timeSince ev + traceTime trace < 2 ^ 64 := by omega
    rw [traceStream, hadd]
    split
    · obtain ⟨hsorted, hlater⟩ := ih hdelta instr hrest
      exact ⟨hsorted, fun e he => (Nat.le_add_right _ _).trans (hlater e he)⟩
    · obtain ⟨hsorted, hlater⟩ := ih hdelta ((instr + 1) % 2 ^ 32) hrest
      refine ⟨List.pairwise_cons.mpr ⟨hlater, hsorted⟩, List.forall_mem_cons.mpr ⟨Nat.le_add_right _ _, ?_⟩⟩
      exact fun e he => (Nat.le_add_right _ _).trans (hlater e he)

theorem nonneg_of_importEvents {cfg : Config} {kind : Kind} {trace : List TraceEvent} {p q : Progress}
    (h : trace.foldlM (importEvent cfg kind) p = some q) : ∀ ev ∈ trace, ∀ delta ∈ ev.timeDelta, 0 ≤ delta := by
  induction trace generalizing p with
  | nil => simp
  | cons ev trace ih =>
    rw [List.foldlM_cons] at h
    obtain ⟨p₁, hev, hrest⟩ := Option.bind_eq_some_iff.mp h
    obtain ⟨p₂, htime, -⟩ := Option.bind_eq_some_iff.mp hev
    exact List.forall_mem_cons.mpr ⟨nonneg_of_advanceTime htime, ih hrest⟩

theorem nonneg_of_copyToDatabase {cfg : Config} {kind : Kind} {trace : List TraceEvent} {st : Importer}
    (h : copyToDatabase cfg kind trace = some st) : ∀ ev ∈ trace, ∀ delta ∈ ev.timeDelta, 0 ≤ delta := by
  obtain ⟨p, hfold, -⟩ := Option.bind_eq_some_iff.mp h
  exact nonneg_of_importEvents hfold

/-! ## The regions around a point in time -/

/-- **A class may start at a point in time.** If the first instruction at or behind the point is at the point, no
other instruction at the point begins a region. Otherwise it is neither the first instruction nor does it begin a
region. -/
def InOneRegion (begins : ℕ → Prop) (events : List Event) (time : ℕ) : Prop :=
  ∃ front e back, events = front ++ e :: back ∧ (∀ e' ∈ front, e'.dynamicTime < time) ∧
    (e.dynamicTime = time ∧ (∀ e' ∈ back, e'.dynamicTime = time → ¬begins e'.staticInstr) ∨
      time < e.dynamicTime ∧ front ≠ [] ∧ ¬begins e.staticInstr)

theorem inOneBlock_iff {leaders : Finset ℕ} {begins : ℕ → Prop} (h : ∀ a, a ∈ leaders ↔ begins a)
    (events : List Event) (time : ℕ) :
    InOneBlock Event.staticInstr (isLeader leaders) Event.dynamicTime events time ↔
      InOneRegion begins events time := by
  refine exists_congr fun front => exists_congr fun e => exists_congr fun back => ?_
  refine and_congr_right fun _ => and_congr_right fun _ => ?_
  have hnot : ∀ a, isLeader leaders a = false ↔
      ¬begins a := fun a => by rw [isLeader, decide_eq_false_iff_not, h]
  simp only [hnot]
  by_cases htime : e.dynamicTime = time
  · simp [htime]
  · rw [if_neg htime]
    have hlt : time ≤ e.dynamicTime ↔ time < e.dynamicTime := by omega
    simp only [htime, false_and, false_or, hlt]

/-- **The regions around a point in time** are the blocks around it. -/
theorem countP_startsIn (leaders : Finset ℕ) (id : ℕ) (events : List Event) (t : TraceRow) :
    (BasicBlockPruner.findRegions leaders id events).countP (startsIn · t) =
      (blocks Event.staticInstr (isLeader leaders) events).countP (coversTime Event.dynamicTime t.time1) := by
  have h := forall₂_findRegions leaders id events
  generalize BasicBlockPruner.findRegions leaders id events = regions at h
  generalize blocks Event.staticInstr (isLeader leaders) events = bs at h
  induction h with
  | nil => rfl
  | @cons region block regions bs hregion _ ih =>
    rw [List.countP_cons, List.countP_cons, ih]
    congr 2
    simp [startsIn, coversTime, hregion.first, hregion.last]

/-! ## The sums -/

/-- **The regions account for every read exactly once.** -/
structure AccountsForReads (regions : List Region) (fspregion : List FspRegion) (trace : List TraceRow) :
    Prop where
  once : ∀ t ∈ readRows trace, regions.countP (startsIn · t) = 1
  counts : (fspregion.map fun r => r.countInner + r.countOuter).sum = (readRows trace).length
  weights : (fspregion.map fun r => r.weightInner + r.weightOuter).sum = ((readRows trace).map weightRegular).sum

/-- The reads that start in a region, and end in it or behind it. -/
def readsOf (trace : List TraceRow) (region : Region) (isInner : Bool) : List TraceRow :=
  (readRows trace).filter fun t => startsIn region t && (inner region t == isInner)

/-- **The weights fit into the columns** of `fspregion`. -/
def WeightsFit (regions : List Region) (trace : List TraceRow) : Prop :=
  ∀ region ∈ regions, ∀ isInner, ((readsOf trace region isInner).map weightRegular).sum < 2 ^ 31

variable {helper : List Region} {trace : List TraceRow} {region : Region}

theorem intColumn_le (n : ℕ) : intColumn n ≤ n := min_le_left _ _

theorem intColumn_eq_self_iff {n : ℕ} : intColumn n = n ↔ n < 2 ^ 31 := by
  rw [intColumn]
  omega

/-- They do if all reads together are short enough. -/
theorem weightsFit_of_sum_lt (h : ((readRows trace).map weightRegular).sum < 2 ^ 31) : WeightsFit helper trace :=
  fun _ _ _ => ((List.filter_sublist.map _).sum_le_sum fun _ _ => Nat.zero_le _).trans_lt h

theorem sumOf_eq (trace : List TraceRow) (hids : (helper.map Region.id).Nodup) (hregion : region ∈ helper)
    (isInner : Bool) (f : TraceRow → ℕ) :
    sumOf helper trace region.id (fun rr t => f t * (inner rr t == isInner).toNat) =
      ((readsOf trace region isInner).map f).sum := by
  have hfilter : readsOf trace region isInner =
      ((readRows trace).filter (startsIn region)).filter fun t => inner region t == isInner := by
    rw [List.filter_filter]
    simp only [readsOf, Bool.and_comm]
  rw [sumOf, joined, filter_joinOn hids hregion, List.map_map, hfilter,
    sum_map_filter _ fun t => inner region t == isInner]
  rfl

/-- **The columns of a region** are the sums over its reads, as far as they fit. -/
theorem exportRegion_columns (trace : List TraceRow) (hids : (helper.map Region.id).Nodup)
    (hregion : region ∈ helper) :
    (exportRegion helper trace region).weightInner =
      intColumn ((readsOf trace region true).map weightRegular).sum ∧
      (exportRegion helper trace region).weightOuter =
        intColumn ((readsOf trace region false).map weightRegular).sum ∧
      (exportRegion helper trace region).countInner = intColumn (readsOf trace region true).length ∧
      (exportRegion helper trace region).countOuter = intColumn (readsOf trace region false).length := by
  have hweight := fun isInner => sumOf_eq trace hids hregion isInner weightRegular
  have hcount := fun isInner => sumOf_eq trace hids hregion isInner fun _ => 1
  simp only [one_mul, List.map_const', List.sum_replicate, smul_eq_mul, mul_one] at hcount
  refine ⟨?_, ?_, ?_, ?_⟩
  · simpa [exportRegion] using congrArg intColumn (hweight true)
  · simpa [exportRegion] using congrArg intColumn (hweight false)
  · simpa [exportRegion] using congrArg intColumn (hcount true)
  · simpa [exportRegion] using congrArg intColumn (hcount false)

/-- **The sums over all regions**, if every read starts in one region. -/
theorem sum_readsOf (honce : ∀ t ∈ readRows trace, helper.countP (startsIn · t) = 1) (f : TraceRow → ℕ) :
    (helper.map fun region =>
        ((readsOf trace region true).map f).sum + ((readsOf trace region false).map f).sum).sum =
      ((readRows trace).map f).sum := by
  have hregion : ∀ region, ((readsOf trace region true).map f).sum + ((readsOf trace region false).map f).sum =
      (((readRows trace).filter (startsIn region)).map f).sum := by
    intro region
    simp only [readsOf, sum_map_filter, ← List.sum_map_add]
    congr 2
    funext t
    cases startsIn region t <;> cases inner region t <;> simp
  simp only [hregion]
  rw [sum_map_countP, List.map_congr_left fun t ht => by rw [honce t ht, Nat.mul_one]]

/-- **The sums are right** if every read starts in one region, and the weights fit into their columns. -/
theorem accountsForReads_iff (hids : (helper.map Region.id).Nodup) :
    AccountsForReads helper (helper.map (exportRegion helper trace)) trace ↔
      (∀ t ∈ readRows trace, helper.countP (startsIn · t) = 1) ∧ WeightsFit helper trace := by
  constructor
  · refine fun h => ⟨h.once, fun region hregion => ?_⟩
    have hle : ∀ region ∈ helper,
        (exportRegion helper trace region).weightInner + (exportRegion helper trace region).weightOuter ≤
          ((readsOf trace region true).map weightRegular).sum +
            ((readsOf trace region false).map weightRegular).sum := by
      intro region hregion
      obtain ⟨hinner, houter, -⟩ := exportRegion_columns trace hids hregion
      rw [hinner, houter]
      exact Nat.add_le_add (intColumn_le _) (intColumn_le _)
    -- the sums over all regions are equal, so no column is less than its sum
    have hweights := h.weights
    rw [List.map_map, ← sum_readsOf h.once] at hweights
    have heq := hle region hregion |>.eq_or_lt.resolve_right fun hlt =>
      (List.sum_lt_sum _ _ hle ⟨region, hregion, hlt⟩).ne hweights
    obtain ⟨hinner, houter, -⟩ := exportRegion_columns trace hids hregion
    rw [hinner, houter] at heq
    have hinnerle := intColumn_le ((readsOf trace region true).map weightRegular).sum
    have houterle := intColumn_le ((readsOf trace region false).map weightRegular).sum
    intro isInner
    rw [← intColumn_eq_self_iff]
    cases isInner <;> omega
  · rintro ⟨honce, hfit⟩
    have hcounts : ∀ region ∈ helper, ∀ isInner, (readsOf trace region isInner).length < 2 ^ 31 := by
      intro region hregion isInner
      have hlen := List.length_le_sum_of_one_le ((readsOf trace region isInner).map weightRegular)
        (by simp [weightRegular])
      rw [List.length_map] at hlen
      exact hlen.trans_lt (hfit region hregion isInner)
    refine ⟨honce, ?_, ?_⟩
    · have hsum := sum_readsOf honce fun _ => 1
      simp only [List.map_const', List.sum_replicate, smul_eq_mul, mul_one] at hsum
      rw [← hsum, List.map_map]
      refine congrArg List.sum (List.map_congr_left fun region hregion => ?_)
      obtain ⟨-, -, hinner, houter⟩ := exportRegion_columns trace hids hregion
      rw [Function.comp_apply, hinner, houter, intColumn_eq_self_iff.mpr (hcounts region hregion true),
        intColumn_eq_self_iff.mpr (hcounts region hregion false)]
    · rw [← sum_readsOf honce, List.map_map]
      refine congrArg List.sum (List.map_congr_left fun region hregion => ?_)
      obtain ⟨hinner, houter, -⟩ := exportRegion_columns trace hids hregion
      rw [Function.comp_apply, hinner, houter, intColumn_eq_self_iff.mpr (hfit region hregion true),
        intColumn_eq_self_iff.mpr (hfit region hregion false)]

/-! ## Pruning a variant -/

/-- **What pruning a variant writes**, if the database stores the regions. -/
theorem Pruner.prune_fspregion {p q : Pruner} {o : Outside} {v : Variant} {events : List Event}
    (hdb : ∀ i regions, o.inserts i regions = true) (hclear : ∀ row ∈ p.fspregion, row.1 ≠ v.id)
    (h : p.prune events (o, v) = some q) :
    ∃ ts, v.transitions events = some ts ∧
      p.Finds o events { q with helper := p.helper, fspregion := p.fspregion } v ts ∧
      ((q.regions events).map Region.id).Nodup ∧
      (q.fspregion.filter fun row => row.1 = v.id).map Prod.snd =
        (q.regions events).map (exportRegion (q.regions events) v.trace) := by
  obtain ⟨ts, q₁, helper, hts, hfinds, hhelper, hkeys, rfl⟩ := prune_eq_some h
  obtain rfl : helper = q₁.regions events := hhelper.trans (Database.stored_statements _ hdb _)
  refine ⟨ts, hts, ⟨hfinds.method, hfinds.leaders, hfinds.callOrRet, rfl, rfl⟩, ?_, ?_⟩
  · -- the variant is the same in all primary keys, so the ids differ
    rw [List.map_append, List.map_map] at hkeys
    have hpairs : ((q₁.regions events).map fun region => (v.id, region.id)).Nodup :=
      (List.nodup_append.mp hkeys).2.1
    refine List.Nodup.of_map (Prod.mk v.id) ?_
    rwa [List.map_map]
  · have hold : (q₁.fspregion.filter fun row => decide (row.1 = v.id)) = [] := by
      rw [hfinds.fspregion, List.filter_eq_nil_iff]
      exact fun row hrow => by simpa using hclear row hrow
    change ((q₁.fspregion ++ _).filter fun row => decide (row.1 = v.id)).map Prod.snd = _
    rw [List.filter_append, hold, List.nil_append, List.filter_eq_self.mpr (by simp), List.map_map]
    rfl

/-- **The regions account for every read exactly once** if every read starts where a class may start, and the
durations of a region's inner reads, and of its outer ones, add up to less than `2 ^ 31`. -/
theorem reads_accounted_once_iff (cfg : Config) (trace : List TraceEvent) (st : Importer)
    (himport : copyToDatabase cfg .memory trace = some st) (htime : traceTime trace < 2 ^ 64)
    (p q : Pruner) (o : Outside) (hdb : ∀ i regions, o.inserts i regions = true) (v : Variant)
    (hv : v.trace = st.rows)
    (hclear : ∀ row ∈ p.fspregion, row.1 ≠ v.id) (hprune : p.prune (traceStream 0 0 trace) (o, v) = some q) :
    AccountsForReads (q.regions (traceStream 0 0 trace))
        ((q.fspregion.filter fun row => row.1 = v.id).map Prod.snd) st.rows ↔
      (∃ ts, v.transitions (traceStream 0 0 trace) = some ts ∧
        ∀ t ∈ st.rows, t.accesstype = .read → InOneRegion
          (v.Begins p.method (fun c => c ∈ p.callOrRet ∨ v.records c = true)
            (firstAddress o (traceStream 0 0 trace)) ts)
          (traceStream 0 0 trace) t.time1) ∧
      WeightsFit (q.regions (traceStream 0 0 trace)) st.rows := by
  have hzero : 0 + traceTime trace < 2 ^ 64 := by rwa [Nat.zero_add]
  obtain ⟨hsorted, -⟩ := pairwise_traceStream (nonneg_of_copyToDatabase himport) 0 hzero
  obtain ⟨ts, hts, hfinds, hids, hrows⟩ := Pruner.prune_fspregion hdb hclear hprune
  rw [hrows, hv, accountsForReads_iff hids, hts]
  refine and_congr_left fun _ => ?_
  simp only [Option.some.injEq, exists_eq_left', readRows, List.mem_filter, decide_eq_true_eq, and_imp]
  refine forall_congr' fun t => forall_congr' fun _ => forall_congr' fun _ => ?_
  rw [Pruner.regions, countP_startsIn, countP_blocks_eq_one_iff _ _ _ _ hsorted]
  exact inOneBlock_iff hfinds.leaders _ _

/-- The first instruction writes a byte, which is read behind some further instructions. -/
def writeThenRead (further : List TraceEvent) : List TraceEvent :=
  [{ ip := 0x10, timeDelta := some 1 },
    { ip := 0x10, memaddr := some 8, width := some 1, accesstype := some .write }] ++ further ++
      [{ ip := 0x10, memaddr := some 8, width := some 1, accesstype := some .read }]

/-- Three instructions; control flow may fall through from the first to the second one. -/
def threeInstructions (trace : List TraceRow) : Variant where
  id := 1
  objdump := [⟨0x10, 2, "mov"⟩, ⟨0x12, 2, "mov"⟩, ⟨0x20, 2, "mov"⟩]
  trace

/-- The trace is imported, and its regions are found. -/
def Pruned (further : List TraceEvent) (st : Importer) (q : Pruner) : Prop :=
  copyToDatabase { addressBits := 32 } .memory (writeThenRead further) = some st ∧
    Pruner.prune (traceStream 0 0 (writeThenRead further)) { method := .basicBlock }
      ({}, threeInstructions st.rows) =
      some q

/-- The regions account for the read. -/
def Accounted (further : List TraceEvent) (st : Importer) (q : Pruner) : Prop :=
  AccountsForReads (q.regions (traceStream 0 0 (writeThenRead further)))
    ((q.fspregion.filter fun row => row.1 = 1).map Prod.snd) st.rows

/-- The numbers of regions in which the reads of a trace start. -/
def regionsOfReads (further : List TraceEvent) : Option (List ℕ) :=
  (copyToDatabase { addressBits := 32 } .memory (writeThenRead further)).bind fun st =>
    (Pruner.prune (traceStream 0 0 (writeThenRead further)) { method := .basicBlock }
      ({}, threeInstructions st.rows)).map fun q =>
        (readRows st.rows).map fun t =>
          (q.regions (traceStream 0 0 (writeThenRead further))).countP (startsIn · t)

theorem pruned_of_regionsOfReads {further : List TraceEvent} {ns : List ℕ}
    (h : regionsOfReads further = some ns) :
    ∃ st q, Pruned further st q ∧
      ((readRows st.rows).map fun t =>
        (q.regions (traceStream 0 0 (writeThenRead further))).countP (startsIn · t)) = ns := by
  obtain ⟨st, hst, hrest⟩ := Option.bind_eq_some_iff.mp h
  obtain ⟨q, hq, hns⟩ := Option.map_eq_some_iff.mp hrest
  exact ⟨st, q, ⟨hst, hq⟩, hns⟩

/-- The second instruction, one tick behind the first one. -/
def fallThroughEvent : TraceEvent := { ip := 0x12, timeDelta := some 1 }

/-- The read starts with the second instruction of the only region. -/
theorem reads_accounted_once_fallThrough :
    ∃ st q, Pruned [fallThroughEvent] st q ∧ Accounted [fallThroughEvent] st q := by
  have hcounts : regionsOfReads [fallThroughEvent] = some [1] := by decide +kernel
  have hstarts : (copyToDatabase { addressBits := 32 } .memory (writeThenRead [fallThroughEvent])).map
      (fun st => (readRows st.rows).map fun t => (t.time1, weightRegular t)) = some [(2, 1)] := by decide +kernel
  have hstream : traceStream 0 0 (writeThenRead [fallThroughEvent]) =
      [⟨0x10, 0, 1⟩, ⟨0x12, 1, 2⟩] := by decide +kernel
  have hts : (threeInstructions []).transitions [⟨0x10, 0, 1⟩, ⟨0x12, 1, 2⟩] =
      some [(⟨0x10, 0, 1⟩, ⟨0x12, 1, 2⟩)] := by decide +kernel
  have htime : traceTime (writeThenRead [fallThroughEvent]) < 2 ^ 64 := by decide +kernel
  obtain ⟨st, q, ⟨hst, hq⟩, -⟩ := pruned_of_regionsOfReads hcounts
  refine ⟨st, q, ⟨hst, hq⟩, (reads_accounted_once_iff _ _ st hst htime _ q {} (fun _ _ => rfl)
    (threeInstructions st.rows) rfl (by simp) hq).mpr ?_⟩
  rw [hstream]
  rw [hst, Option.map_some, Option.some_inj] at hstarts
  refine ⟨⟨_, hts, fun t ht hread => ⟨[⟨0x10, 0, 1⟩], ⟨0x12, 1, 2⟩, [], rfl, ?_⟩⟩, weightsFit_of_sum_lt ?_⟩
  · have hrow : t ∈ readRows st.rows := List.mem_filter.mpr ⟨ht, decide_eq_true hread⟩
    have hmem := List.mem_map_of_mem (f := fun t => (t.time1, weightRegular t)) hrow
    rw [hstarts] at hmem
    have hstart : t.time1 = 2 := congrArg Prod.fst (List.mem_singleton.mp hmem)
    simp [hstart]
  · have hweights := congrArg (List.map Prod.snd) hstarts
    rw [List.map_map] at hweights
    exact (congrArg List.sum hweights).trans_lt (by decide)

/-- A read that does not start in one region. -/
theorem not_accounted {further : List TraceEvent} {n : ℕ} (hcounts : regionsOfReads further = some [n])
    (hn : n ≠ 1) :
    ∃ st q, Pruned further st q ∧ ¬Accounted further st q := by
  obtain ⟨st, q, hpruned, hns⟩ := pruned_of_regionsOfReads hcounts
  refine ⟨st, q, hpruned, fun h => ?_⟩
  have hone : ∀ m ∈ [n], m = 1 := by
    rw [← hns]
    simpa using h.once
  exact hn (hone n (List.mem_singleton_self n))

/-- A read that starts between two regions, and one that starts in two regions: the second and the third
instruction are executed at the same time. -/
theorem reads_not_accounted_once :
    (∃ st q, Pruned [{ ip := 0x20, timeDelta := some 2 }] st q ∧
      ¬Accounted [{ ip := 0x20, timeDelta := some 2 }] st q) ∧
    ∃ st q, Pruned [fallThroughEvent, { ip := 0x20 }] st q ∧
      ¬Accounted [fallThroughEvent, { ip := 0x20 }] st q := by
  have hnone : regionsOfReads [{ ip := 0x20, timeDelta := some 2 }] = some [0] := by decide +kernel
  have htwo : regionsOfReads [fallThroughEvent, { ip := 0x20 }] = some [2] := by decide +kernel
  exact ⟨not_accounted hnone (by decide), not_accounted htwo (by decide)⟩

end FailStar.PruneTrace.RegionPruner
