import FailStar.PruneTrace.Tables

/-! # Database campaigns

A `DatabaseCampaign` sends one job for each pilot, and stores the results the `DatabaseExperiment`s return for
it. When it is restarted, it skips the pilots whose results are complete.

* **`DatabaseCampaign.run`** — the jobs that are sent, given the stored results.
* **`DatabaseExperiment.run`** — the results of a job, one for each injected bit offset.
* **`insertRow`** — storing the results of a job.
* **`restart_exact_iff`** — the restart is exact if the number of results that is expected is the number of
  results of every pilot. -/

namespace FailStar.Campaign

open PruneTrace

/-! ## Jobs -/

/-- `RegisterInjectionMode`. -/
inductive RegisterInjectionMode
  | off
  | auto
  | force
  | randomjump
  deriving DecidableEq, Repr

/-- `Database::Variant`. -/
structure Variant where
  id : ℕ
  variant : String
  benchmark : String
  deriving DecidableEq, Repr

/-- `DatabaseCampaignMessage`: a job. -/
structure DatabaseCampaignMessage where
  pilotId : ℕ
  injectionInstr : ℕ
  injectionInstrAbsolute : Option ℕ
  dataAddress : ℕ
  dataWidth : ℕ
  variant : String
  benchmark : String
  /-- The arguments of `parseFromInjectionInstr`. -/
  injectionPoint : ℕ × ℕ
  injectBursts : Bool
  registerInjectionMode : RegisterInjectionMode
  deriving DecidableEq, Repr

/-- `DatabaseCampaign`. -/
structure DatabaseCampaign where
  /-- Whether the name of a method matches `m_fspmethod`. -/
  fspmethod : ℕ → Bool
  injectBursts : Bool
  registerInjectionMode : RegisterInjectionMode

/-- A row of the result table: the columns of `DatabaseExperimentMessage`, and those of the experiment. -/
structure ResultRow (β : Type) where
  pilotId : ℕ
  bitoffset : ℕ
  injectionWidth : ℕ
  /-- `original_value`, and the columns of the experiment. -/
  outcome : β
  deriving DecidableEq, Repr

/-- The fields with the option `sql_primary_key`. -/
def ResultRow.key {β : Type} (r : ResultRow β) : ℕ × ℕ := (r.pilotId, r.bitoffset)

/-- The result table. -/
abbrev Results (β : Type) := Table (ResultRow.key (β := β))

namespace DatabaseCampaign

variable {β : Type} (campaign : DatabaseCampaign)

/-- `expected_number_of_results`. -/
def expectedNumberOfResults : ℕ := if campaign.injectBursts then 1 else 8

/-- The pilots of a variant, joined with the trace, in the order of `instr1`. -/
def pilots (db : PruneDb) (variant : Variant) : List ((ℕ × Pilot) × TraceEntry) :=
  ((db.fsppilot.rows.filter fun p => campaign.fspmethod p.2.fspmethodId ∧
    p.2.variantId = variant.id).flatMap fun p =>
    (db.trace.rows.filter fun t => traceKey t = p.2.traceKey).map fun t => (p, t)).insertionSort
      fun x y => x.2.2.instr1 ≤ y.2.2.instr1

/-- The job for a pilot. -/
def message (variant : Variant) (x : (ℕ × Pilot) × TraceEntry) : DatabaseCampaignMessage where
  pilotId := x.1.1
  injectionInstr := x.1.2.injectionInstr
  injectionInstrAbsolute := x.1.2.injectionInstrAbsolute
  dataAddress := x.1.2.dataAddress
  dataWidth := x.1.2.dataWidth
  variant := variant.variant
  benchmark := variant.benchmark
  injectionPoint := (x.2.2.instr1, x.2.2.instr2)
  injectBursts := campaign.injectBursts
  registerInjectionMode := campaign.registerInjectionMode

/-- `load_completed_pilots(variants)`: the pilots that have results, with their number, an `unsigned`. -/
def loadCompletedPilots (db : PruneDb) (variants : List Variant) (results : Results β) : List (ℕ × ℕ) :=
  (db.fsppilot.rows.filter fun p =>
      p.2.variantId ∈ variants.map Variant.id ∧ campaign.fspmethod p.2.fspmethodId).filterMap fun p =>
    let count := results.rows.countP fun r => r.pilotId = p.1
    if count = 0 then none else some (p.1, count % 2 ^ 32)

/-- `existing_results_for_pilot(pilot_id)`. -/
def existingResultsForPilot (completedPilots : List (ℕ × ℕ)) (pilotId : ℕ) : ℕ :=
  (completedPilots.lookup pilotId).getD 0

/-- **`run_variant(variant)`**: the jobs that are sent. -/
def runVariant (completedPilots : List (ℕ × ℕ)) (db : PruneDb) (variant : Variant) :
    List DatabaseCampaignMessage :=
  ((campaign.pilots db variant).map (campaign.message variant)).filter fun m =>
    existingResultsForPilot completedPilots m.pilotId ≠ campaign.expectedNumberOfResults

/-- **`run()`**: the jobs of all variants. -/
def run (db : PruneDb) (variants : List Variant) (results : Results β) : List DatabaseCampaignMessage :=
  variants.flatMap (campaign.runVariant (campaign.loadCompletedPilots db variants results) db)

end DatabaseCampaign

/-! ## Experiments -/

namespace DatabaseExperiment

/-- `injection_width`. -/
def injectionWidth (m : DatabaseCampaignMessage) : ℕ :=
  if m.injectBursts ∨ m.registerInjectionMode = .randomjump then 8 else 1

/-- The values of `bit_offset` in the loop of `run`: from 0 in steps of `injection_width` up to `width * 8`. -/
def bitOffsets (m : DatabaseCampaignMessage) : List ℕ :=
  List.range' 0 ((m.dataWidth * 8 % 2 ^ 32 + injectionWidth m - 1) / injectionWidth m) (injectionWidth m)

/-- **`run()`**: the results of a job, of what is observed behind the injection at each bit offset. -/
def run {β : Type} (m : DatabaseCampaignMessage) (observe : ℕ → β) : List (ResultRow β) :=
  (bitOffsets m).map fun bitOffset =>
    { pilotId := m.pilotId, bitoffset := bitOffset, injectionWidth := injectionWidth m,
      outcome := observe bitOffset }

end DatabaseExperiment

/-! ## Storing results -/

/-- **`insert_row(msg)`**, for a message with one repeated group: an `INSERT` for each of its elements, whose
failure is only logged. The first element is accessed even if there is none. -/
def insertRow {β : Type} (results : Results β) (rows : List (ResultRow β)) : Option (Results β) :=
  if rows = [] then none else some (rows.foldl Table.insertOne results)

/-- `collect_result_thread()`: the results of all jobs that are received. -/
def collectResults {β : Type} (results : Results β) (received : List (DatabaseCampaignMessage × (ℕ → β))) :
    Option (Results β) :=
  received.foldlM (fun results x => insertRow results (DatabaseExperiment.run x.1 x.2)) results

/-! ## The number of results -/

namespace DatabaseExperiment

/-- The width in bytes, as far as the product with 8 keeps it. -/
theorem width_mul_eight (w : ℕ) : w * 8 % 2 ^ 32 = w % 2 ^ 29 * 8 :=
  Nat.mul_mod_mul_right 8 w (2 ^ 29)

/-- **The number of results of a job.** -/
theorem length_bitOffsets (m : DatabaseCampaignMessage) :
    (bitOffsets m).length =
      if m.injectBursts ∨ m.registerInjectionMode = .randomjump then m.dataWidth % 2 ^ 29
      else m.dataWidth % 2 ^ 29 * 8 := by
  rw [bitOffsets, List.length_range', width_mul_eight, injectionWidth]
  split
  · omega
  · omega

theorem nodup_bitOffsets (m : DatabaseCampaignMessage) : (bitOffsets m).Nodup := by
  refine List.nodup_range' _ ?_
  rw [injectionWidth]
  split
  · decide
  · decide

theorem length_bitOffsets_lt (m : DatabaseCampaignMessage) : (bitOffsets m).length < 2 ^ 32 := by
  have hlt := Nat.mod_lt m.dataWidth (by decide : 0 < 2 ^ 29)
  rw [length_bitOffsets]
  split
  · omega
  · omega

theorem keys_run {β : Type} (m : DatabaseCampaignMessage) (observe : ℕ → β) :
    (run m observe).map ResultRow.key = (bitOffsets m).map fun o => (m.pilotId, o) := by
  rw [run, List.map_map]
  rfl

end DatabaseExperiment

open DatabaseExperiment (bitOffsets)

section Stored

variable {β : Type} {results : Results β} {m : DatabaseCampaignMessage}

/-- The number of results of a pilot in the table. -/
def storedCount (results : Results β) (pilotId : ℕ) : ℕ := results.rows.countP fun r => r.pilotId = pilotId

/-- The stored results of a pilot are results of its job. -/
def StoredFor (results : Results β) (m : DatabaseCampaignMessage) : Prop :=
  ∀ r ∈ results.rows, r.pilotId = m.pilotId → r.bitoffset ∈ bitOffsets m

/-- A result of the job is missing. -/
def Missing (results : Results β) (m : DatabaseCampaignMessage) : Prop :=
  ∃ o ∈ bitOffsets m, (m.pilotId, o) ∉ results.rows.map ResultRow.key

/-- The stored bit offsets of a pilot. -/
def storedOffsets (results : Results β) (pilotId : ℕ) : List ℕ :=
  (results.rows.filter fun r => r.pilotId = pilotId).map ResultRow.bitoffset

theorem length_storedOffsets (results : Results β) (pilotId : ℕ) :
    (storedOffsets results pilotId).length = storedCount results pilotId := by
  rw [storedOffsets, List.length_map, storedCount, List.countP_eq_length_filter]

theorem mem_storedOffsets {pilotId o : ℕ} :
    o ∈ storedOffsets results pilotId ↔ (pilotId, o) ∈ results.rows.map ResultRow.key := by
  rw [storedOffsets, List.mem_map, List.mem_map]
  refine exists_congr fun r => ?_
  rw [List.mem_filter, decide_eq_true_eq, and_assoc]
  exact and_congr_right fun _ => ⟨fun h => Prod.ext h.1 h.2, fun h => ⟨congrArg Prod.fst h, congrArg Prod.snd h⟩⟩

theorem nodup_storedOffsets (results : Results β) (pilotId : ℕ) : (storedOffsets results pilotId).Nodup := by
  refine (results.unique.of_map.sublist List.filter_sublist).map_on fun r hr r' hr' h => ?_
  obtain ⟨hr, hpilot⟩ := List.mem_filter.mp hr
  obtain ⟨hr', hpilot'⟩ := List.mem_filter.mp hr'
  refine results.eq_of_key hr hr' (Prod.ext ?_ h)
  exact (of_decide_eq_true hpilot).trans (of_decide_eq_true hpilot').symm

theorem StoredFor.subperm (h : StoredFor results m) :
    (storedOffsets results m.pilotId).Subperm (bitOffsets m) := by
  refine (nodup_storedOffsets results m.pilotId).subperm fun o ho => ?_
  obtain ⟨r, hr, rfl⟩ := List.mem_map.mp ho
  obtain ⟨hr, hpilot⟩ := List.mem_filter.mp hr
  exact h r hr (of_decide_eq_true hpilot)

theorem StoredFor.count_le (h : StoredFor results m) :
    storedCount results m.pilotId ≤ (bitOffsets m).length := by
  rw [← length_storedOffsets]
  exact h.subperm.length_le

/-- **A result is missing** if there are not as many rows as bit offsets. -/
theorem StoredFor.missing_iff (h : StoredFor results m) :
    Missing results m ↔ storedCount results m.pilotId ≠ (bitOffsets m).length := by
  rw [← length_storedOffsets]
  constructor
  · rintro ⟨o, ho, hmissing⟩ hlen
    have hperm := h.subperm.perm_of_length_le hlen.ge
    exact hmissing (mem_storedOffsets.mp (hperm.symm.subset ho))
  · intro hlen
    by_contra hnone
    have hsub : bitOffsets m ⊆ storedOffsets results m.pilotId := by
      intro o ho
      by_contra hnot
      exact hnone ⟨o, ho, fun hmem => hnot (mem_storedOffsets.mpr hmem)⟩
    have hle := ((DatabaseExperiment.nodup_bitOffsets m).subperm hsub).length_le
    exact hlen (Nat.le_antisymm h.subperm.length_le hle)

end Stored

/-! ## Storing the results of all jobs -/

section Collect

variable {β : Type} {results : Results β}

theorem mem_keys_foldl_insertOne (rows : List (ResultRow β)) (results : Results β) (k : ℕ × ℕ) :
    k ∈ (rows.foldl Table.insertOne results).rows.map ResultRow.key ↔
      k ∈ results.rows.map ResultRow.key ∨ k ∈ rows.map ResultRow.key := by
  induction rows generalizing results with
  | nil => simp
  | cons r rows ih => rw [List.foldl_cons, ih, Table.mem_keys_insertOne, List.map_cons, List.mem_cons, or_assoc]

/-- **The keys behind the results of all jobs.** Results that are there already are not stored again. -/
theorem collectResults_eq_some {received : List (DatabaseCampaignMessage × (ℕ → β))}
    (h : ∀ x ∈ received, bitOffsets x.1 ≠ []) (results : Results β) :
    ∃ results', collectResults results received = some results' ∧ ∀ k,
      k ∈ results'.rows.map ResultRow.key ↔
        k ∈ results.rows.map ResultRow.key ∨
          ∃ x ∈ received, k ∈ (bitOffsets x.1).map fun o => (x.1.pilotId, o) := by
  induction received generalizing results with
  | nil => exact ⟨results, rfl, by simp⟩
  | cons x received ih =>
    obtain ⟨hx, hreceived⟩ := List.forall_mem_cons.mp h
    have hrow : insertRow results (DatabaseExperiment.run x.1 x.2) =
        some ((DatabaseExperiment.run x.1 x.2).foldl Table.insertOne results) :=
      if_neg fun hnil => hx (List.map_eq_nil_iff.mp hnil)
    obtain ⟨results', hcollect, hkeys⟩ := ih hreceived _
    refine ⟨results', ?_, fun k => ?_⟩
    · rw [collectResults, List.foldlM_cons, hrow]
      exact hcollect
    · rw [hkeys, mem_keys_foldl_insertOne, DatabaseExperiment.keys_run, or_assoc, List.exists_mem_cons_iff]

end Collect

/-! ## The restart -/

namespace DatabaseCampaign

variable {β : Type} {campaign : DatabaseCampaign} {db : PruneDb} {variants : List Variant} {results : Results β}
  {m m' : DatabaseCampaignMessage}

/-- The jobs of all pilots. -/
def messages (campaign : DatabaseCampaign) (db : PruneDb) (variants : List Variant) :
    List DatabaseCampaignMessage :=
  variants.flatMap fun variant => (campaign.pilots db variant).map (campaign.message variant)

/-- Every job belongs to a pilot of one of the variants. -/
theorem exists_pilot (h : m ∈ campaign.messages db variants) :
    ∃ p ∈ db.fsppilot.rows, (p.2.variantId ∈ variants.map Variant.id ∧ campaign.fspmethod p.2.fspmethodId) ∧
      m.pilotId = p.1 ∧ m.dataWidth = p.2.dataWidth ∧ m.injectBursts = campaign.injectBursts ∧
      m.registerInjectionMode = campaign.registerInjectionMode := by
  obtain ⟨variant, hvariant, hm⟩ := List.mem_flatMap.mp h
  obtain ⟨x, hx, rfl⟩ := List.mem_map.mp hm
  obtain ⟨p, hp, hx⟩ := List.mem_flatMap.mp ((List.perm_insertionSort _ _).subset hx)
  obtain ⟨t, -, rfl⟩ := List.mem_map.mp hx
  obtain ⟨hp, hcond⟩ := List.mem_filter.mp hp
  obtain ⟨hmethod, hid⟩ := of_decide_eq_true hcond
  exact ⟨p, hp, ⟨hid ▸ List.mem_map_of_mem hvariant, hmethod⟩, rfl, rfl, rfl, rfl⟩

theorem bitOffsets_eq (hm : m ∈ campaign.messages db variants) (hm' : m' ∈ campaign.messages db variants)
    (h : m'.pilotId = m.pilotId) : bitOffsets m' = bitOffsets m := by
  obtain ⟨p, hp, -, hid, hwidth, hbursts, hmode⟩ := exists_pilot hm
  obtain ⟨p', hp', -, hid', hwidth', hbursts', hmode'⟩ := exists_pilot hm'
  obtain rfl : p' = p := db.fsppilot.eq_of_fst hp' hp (by rw [← hid, ← hid', h])
  rw [bitOffsets, bitOffsets, DatabaseExperiment.injectionWidth, DatabaseExperiment.injectionWidth, hwidth,
    hwidth', hbursts, hbursts', hmode, hmode']

theorem lookup_filterMap (count : ℕ → ℕ) (pilots : List (ℕ × Pilot)) (pilotId : ℕ) :
    ((pilots.filterMap fun p => if count p.1 = 0 then none else some (p.1, count p.1 % 2 ^ 32)).lookup
      pilotId).getD 0 =
      if pilotId ∈ pilots.map Prod.fst then count pilotId % 2 ^ 32 else 0 := by
  induction pilots with
  | nil => rfl
  | cons p pilots ih =>
    by_cases hid : pilotId = p.1
    · subst hid
      rw [if_pos (by simp)]
      by_cases hzero : count p.1 = 0
      · simp only [List.filterMap_cons, hzero, if_true]
        rw [ih, hzero]
        simp
      · simp only [List.filterMap_cons, hzero, if_false, List.lookup_cons_self, Option.getD_some]
    · have hmem : pilotId ∈ (p :: pilots).map Prod.fst ↔ pilotId ∈ pilots.map Prod.fst := by simp [hid]
      rw [if_congr hmem rfl rfl, ← ih]
      by_cases hzero : count p.1 = 0
      · simp only [List.filterMap_cons, hzero, if_true]
      · simp only [List.filterMap_cons, hzero, if_false, List.lookup_cons, beq_false_of_ne hid]

/-- **The number of results that is looked up** is that of the table. -/
theorem existingResultsForPilot_eq (hm : m ∈ campaign.messages db variants) (h : StoredFor results m) :
    existingResultsForPilot (campaign.loadCompletedPilots db variants results) m.pilotId =
      storedCount results m.pilotId := by
  obtain ⟨p, hp, hcond, hid, -⟩ := exists_pilot hm
  have hmem : m.pilotId ∈ (db.fsppilot.rows.filter fun p =>
      p.2.variantId ∈ variants.map Variant.id ∧ campaign.fspmethod p.2.fspmethodId).map Prod.fst := by
    rw [hid]
    exact List.mem_map_of_mem (List.mem_filter.mpr ⟨hp, decide_eq_true hcond⟩)
  have hlookup := lookup_filterMap (storedCount results) (db.fsppilot.rows.filter fun p =>
    p.2.variantId ∈ variants.map Variant.id ∧ campaign.fspmethod p.2.fspmethodId) m.pilotId
  rw [if_pos hmem, Nat.mod_eq_of_lt (h.count_le.trans_lt (DatabaseExperiment.length_bitOffsets_lt m))] at hlookup
  exact hlookup

/-- **The jobs that are sent.** -/
theorem mem_run_iff (hm : m ∈ campaign.messages db variants) (h : StoredFor results m) :
    m ∈ campaign.run db variants results ↔ storedCount results m.pilotId ≠ campaign.expectedNumberOfResults := by
  rw [← existingResultsForPilot_eq hm h]
  constructor
  · intro hrun
    obtain ⟨variant, -, hrun⟩ := List.mem_flatMap.mp hrun
    exact of_decide_eq_true (List.mem_filter.mp hrun).2
  · intro hne
    obtain ⟨variant, hvariant, hm⟩ := List.mem_flatMap.mp hm
    exact List.mem_flatMap.mpr ⟨variant, hvariant, List.mem_filter.mpr ⟨hm, decide_eq_true hne⟩⟩

theorem mem_messages_of_run (h : m ∈ campaign.run db variants results) : m ∈ campaign.messages db variants := by
  obtain ⟨variant, hvariant, hrun⟩ := List.mem_flatMap.mp h
  exact List.mem_flatMap.mpr ⟨variant, hvariant, (List.mem_filter.mp hrun).1⟩

/-- **The width for which the expected number of results is right**: one byte, or 8 bytes for random jumps
without bursts. -/
def WidthExpected (m : DatabaseCampaignMessage) : Prop :=
  m.dataWidth % 2 ^ 29 = if m.injectBursts = false ∧ m.registerInjectionMode = .randomjump then 8 else 1

instance (m : DatabaseCampaignMessage) : Decidable (WidthExpected m) := inferInstanceAs (Decidable (_ = _))

theorem length_bitOffsets_eq_iff (hm : m ∈ campaign.messages db variants) :
    (bitOffsets m).length = campaign.expectedNumberOfResults ↔ WidthExpected m := by
  obtain ⟨p, -, -, -, -, hbursts, -⟩ := exists_pilot hm
  rw [DatabaseExperiment.length_bitOffsets, expectedNumberOfResults, ← hbursts, WidthExpected]
  cases m.injectBursts with
  | true => simp
  | false =>
    by_cases hmode : m.registerInjectionMode = .randomjump
    · simp [hmode]
    · simp only [Bool.false_eq_true, hmode, or_self, and_false, if_false]
      omega

/-- **The restart is exact**: it sends the jobs of the pilots that miss a result, and once their results are
stored every pilot has one row for each bit offset. -/
structure RestartExact (campaign : DatabaseCampaign) (db : PruneDb) (variants : List Variant)
    (results : Results β) :
    Prop where
  sent : ∀ m ∈ campaign.messages db variants, m ∈ campaign.run db variants results ↔ Missing results m
  stored : ∀ received : List (DatabaseCampaignMessage × (ℕ → β)),
    (∀ m, (∃ observe, (m, observe) ∈ received) ↔ m ∈ campaign.run db variants results) →
    ∃ results', collectResults results received = some results' ∧ ∀ m ∈ campaign.messages db variants,
      (∀ o ∈ bitOffsets m, ∃! r, r ∈ results'.rows ∧ r.key = (m.pilotId, o)) ∧ StoredFor results' m

/-- **A restart is exact** if and only if every pilot has the width for which the expected number of results is
right, or has neither as many rows as expected nor all of them. -/
theorem restart_exact_iff (hstored : ∀ m ∈ campaign.messages db variants, StoredFor results m) :
    RestartExact campaign db variants results ↔ ∀ m ∈ campaign.messages db variants, WidthExpected m ∨
      (storedCount results m.pilotId ≠ campaign.expectedNumberOfResults ∧
        storedCount results m.pilotId ≠ (bitOffsets m).length) := by
  constructor
  · intro hexact m hm
    have hsent := hexact.sent m hm
    rw [mem_run_iff hm (hstored m hm), (hstored m hm).missing_iff] at hsent
    rw [← length_bitOffsets_eq_iff hm, or_iff_not_imp_left]
    intro hne
    constructor
    · intro heq
      exact hsent.mpr (fun hlen => hne (hlen.symm.trans heq)) heq
    · intro hlen
      exact hsent.mp (fun heq => hne (hlen.symm.trans heq)) hlen
  · intro hcond
    have hsent : ∀ m ∈ campaign.messages db variants, m ∈ campaign.run db variants results ↔
        Missing results m := by
      intro m hm
      rw [mem_run_iff hm (hstored m hm), (hstored m hm).missing_iff]
      obtain hwidth | ⟨hne, hlen⟩ := hcond m hm
      · rw [(length_bitOffsets_eq_iff hm).mpr hwidth]
      · exact iff_of_true hne hlen
    refine ⟨hsent, fun received hreceived => ?_⟩
    -- every job that is sent misses a result, and so has one
    have hnonempty : ∀ x ∈ received, bitOffsets x.1 ≠ [] := by
      intro x hx hnil
      have hrun := (hreceived x.1).mp ⟨x.2, hx⟩
      obtain ⟨o, ho, -⟩ := (hsent x.1 (mem_messages_of_run hrun)).mp hrun
      rw [hnil] at ho
      cases ho
    obtain ⟨results', hcollect, hkeys⟩ := collectResults_eq_some hnonempty results
    refine ⟨results', hcollect, fun m hm => ⟨fun o ho => ?_, fun r hr hpilot => ?_⟩⟩
    · have hkey : (m.pilotId, o) ∈ results'.rows.map ResultRow.key := by
        rw [hkeys]
        by_cases hold : (m.pilotId, o) ∈ results.rows.map ResultRow.key
        · exact Or.inl hold
        · obtain ⟨observe, hx⟩ := (hreceived m).mpr ((hsent m hm).mpr ⟨o, ho, hold⟩)
          exact Or.inr ⟨_, hx, List.mem_map_of_mem ho⟩
      obtain ⟨r, hr, hrkey⟩ := List.mem_map.mp hkey
      exact ⟨r, ⟨hr, hrkey⟩, fun r' hr' => results'.eq_of_key hr'.1 hr (hr'.2.trans hrkey.symm)⟩
    · obtain hold | ⟨x, hx, hnew⟩ := (hkeys r.key).mp (List.mem_map_of_mem hr)
      · obtain ⟨r', hr', hkey⟩ := List.mem_map.mp hold
        rw [← show r'.bitoffset = r.bitoffset from congrArg Prod.snd hkey]
        exact hstored m hm r' hr' ((congrArg Prod.fst hkey).trans hpilot)
      · obtain ⟨o, ho, hkey⟩ := List.mem_map.mp hnew
        have hx' := mem_messages_of_run ((hreceived x.1).mp ⟨x.2, hx⟩)
        rw [← show o = r.bitoffset from congrArg Prod.snd hkey]
        rwa [← bitOffsets_eq hm hx' ((congrArg Prod.fst hkey).trans hpilot)]

/-- Two pilots of one byte: all results of the first one are stored, and three of the second one. -/
theorem restart_exact_iff_oneByte :
    let row (instr1 instr2 : ℕ) : ImportTrace.TraceRow :=
      { instr1, instr1Absolute := none, instr2, instr2Absolute := some 0x1000, time1 := instr1, time2 := instr2
        dataAddress := 8, width := 1, accesstype := .read, isFake := false }
    let pilot (instr2 : ℕ) : Pilot := ⟨0, 1, instr2, instr2, some 0x1000, 8, 1, 1⟩
    let db : PruneDb :=
      { trace := ⟨[(1, row 1 3), (1, row 4 5)], by decide⟩
        fsppilot := ⟨[(1, pilot 3), (2, pilot 5)], 3, by decide, by decide⟩
        fspgroup := ⟨[⟨1, 3, 8, 1, 1, none⟩, ⟨1, 5, 8, 1, 2, none⟩], by decide⟩ }
    let results : Results Unit :=
      ⟨((List.range 8).map fun o => ⟨1, o, 1, ()⟩) ++ (List.range 3).map fun o => ⟨2, o, 1, ()⟩, by decide⟩
    RestartExact { fspmethod := fun _ => true, injectBursts := false, registerInjectionMode := .off } db
      [⟨1, "v", "b"⟩]
      results := by
  intro row pilot db results
  exact (restart_exact_iff (by unfold StoredFor; decide +kernel)).mpr (by decide +kernel)

/-- **A restart that is not exact**: a random jump has one result, but 8 are expected, so that a complete pilot
is sent again; and a pilot of 4 bytes with 8 of its 32 results is not sent. -/
theorem restart_not_exact :
    let row : ImportTrace.TraceRow :=
      { instr1 := 1, instr1Absolute := none, instr2 := 3, instr2Absolute := some 0x1000, time1 := 1, time2 := 3
        dataAddress := 8, width := 1, accesstype := .read, isFake := false }
    let db (dataWidth : ℕ) : PruneDb :=
      { trace := ⟨[(1, row)], by decide⟩
        fsppilot := ⟨[(1, ⟨0, 1, 3, 3, some 0x1000, 8, dataWidth, 1⟩)], 2, by simp, by simp⟩
        fspgroup := ⟨[⟨1, 3, 8, 1, 1, none⟩], by decide⟩ }
    let variants : List Variant := [⟨1, "v", "b"⟩]
    let jumps : DatabaseCampaign :=
      { fspmethod := fun _ => true, injectBursts := false, registerInjectionMode := .randomjump }
    let flips : DatabaseCampaign :=
      { fspmethod := fun _ => true, injectBursts := false, registerInjectionMode := .auto }
    let one : Results Unit := ⟨[⟨1, 0, 8, ()⟩], by decide⟩
    let eight : Results Unit := ⟨(List.range 8).map fun o => ⟨1, o, 1, ()⟩, by decide⟩
    (∃ m ∈ jumps.messages (db 1) variants, m ∈ jumps.run (db 1) variants one ∧ ¬Missing one m) ∧
      ∃ m ∈ flips.messages (db 4) variants, m ∉ flips.run (db 4) variants eight ∧ Missing eight m := by
  unfold Missing
  decide +kernel

end DatabaseCampaign

end FailStar.Campaign
