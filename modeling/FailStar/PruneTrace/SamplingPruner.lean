import FailStar.PruneTrace.BasicPruner
import FailStar.Util.SumTreeIterator

/-! # The sampling pruner

`SamplingPruner` draws points of the fault space. The rows of the trace are the population, and the weight of a
group counts how often its row was drawn. An incremental run goes on with the weights of the runs before.

* **`myRand`** — random numbers up to a limit, from the words of the random source.
* **`SamplingPruner.samplingPrune`** — a run on one variant: load the population, draw, write back.
* **`sampleAll_eq`** — what the loop over all samples draws. -/

namespace FailStar.PruneTrace

open ImportTrace

/-! ## Random numbers -/

/-- The smallest `bitpos` with `limit >> bitpos == 0`. Shifting a 64-bit number by 64 is undefined. -/
def bitpos (limit : ℕ) : Option ℕ := (List.range 64).find? fun b => limit >>> b = 0

/-- The loop of `my_rand`: the first random number that does not exceed the limit, and the unread words. -/
def acceptUpTo (limit bitpos : ℕ) : List ℕ → Option (ℕ × List ℕ)
  | [] => none
  | word :: urandom =>
    let retval := word &&& (2 ^ bitpos - 1)
    if retval > limit then acceptUpTo limit bitpos urandom else some (retval, urandom)

/-- **`my_rand(limit)`**, on the 64-bit words that are read from `/dev/urandom`. -/
def myRand (limit : ℕ) (urandom : List ℕ) : Option (ℕ × List ℕ) :=
  (bitpos limit).bind fun bitpos => acceptUpTo limit bitpos urandom

/-- The random numbers that are accepted. -/
def accepted (limit : ℕ) (urandom : List ℕ) : List ℕ :=
  (urandom.map fun word => word &&& (2 ^ (bitpos limit).getD 0 - 1)).filter fun retval => retval ≤ limit

theorem exists_bitpos {limit : ℕ} (h : limit < 2 ^ 63) : ∃ b, bitpos limit = some b := by
  rw [← Option.isSome_iff_exists, bitpos, List.find?_isSome]
  refine ⟨63, by simp, ?_⟩
  rw [Nat.shiftRight_eq_div_pow, Nat.div_eq_of_lt h]
  rfl

/-- **`my_rand` returns the next accepted number.** -/
theorem myRand_of_accepted {limit r : ℕ} {rs urandom : List ℕ} (h : limit < 2 ^ 63)
    (hnext : accepted limit urandom = r :: rs) :
    r ≤ limit ∧ ∃ urandom', myRand limit urandom = some (r, urandom') ∧ accepted limit urandom' = rs := by
  obtain ⟨b, hb⟩ := exists_bitpos h
  unfold accepted at hnext ⊢
  rw [myRand, hb, Option.bind_some]
  simp only [hb, Option.getD_some] at hnext ⊢
  induction urandom with
  | nil => cases hnext
  | cons word urandom ih =>
    rw [List.map_cons] at hnext
    rw [acceptUpTo]
    by_cases hle : word &&& (2 ^ b - 1) ≤ limit
    · rw [List.filter_cons_of_pos (by simpa using hle)] at hnext
      obtain ⟨rfl, rfl⟩ := List.cons.inj hnext
      exact ⟨hle, urandom, if_neg (Nat.not_lt.mpr hle), rfl⟩
    · rw [List.filter_cons_of_neg (by simpa using hle)] at hnext
      obtain ⟨hr, urandom', haccept, hrest⟩ := ih hnext
      exact ⟨hr, urandom', (if_pos (Nat.not_le.mp hle)).trans haccept, hrest⟩

theorem isSome_bitpos_iff {limit : ℕ} : (bitpos limit).isSome ↔ limit < 2 ^ 63 := by
  refine ⟨fun h => ?_, fun h => Option.isSome_iff_exists.mpr (exists_bitpos h)⟩
  rw [bitpos, List.find?_isSome] at h
  obtain ⟨b, hb, hshift⟩ := h
  rw [List.mem_range] at hb
  have hdiv : limit / 2 ^ b = 0 := by
    rw [← Nat.shiftRight_eq_div_pow]
    exact of_decide_eq_true hshift
  exact (Nat.lt_of_div_eq_zero (Nat.two_pow_pos b) hdiv).trans_le
    (Nat.pow_le_pow_right (by decide) (Nat.le_of_lt_succ hb))

theorem acceptUpTo_le {limit b pos : ℕ} {urandom urandom' : List ℕ}
    (h : acceptUpTo limit b urandom = some (pos, urandom')) : pos ≤ limit := by
  induction urandom with
  | nil => cases h
  | cons word urandom ih =>
    rw [acceptUpTo] at h
    split at h
    · exact ih h
    · rename_i hle
      rw [← (Prod.mk.inj (Option.some.inj h)).1]
      exact Nat.not_lt.mp hle

theorem myRand_le {limit pos : ℕ} {urandom urandom' : List ℕ} (h : myRand limit urandom = some (pos, urandom')) :
    pos ≤ limit := by
  obtain ⟨b, -, haccept⟩ := Option.bind_eq_some_iff.mp h
  exact acceptUpTo_le haccept

theorem myRand_zero {limit : ℕ} (h : limit < 2 ^ 63) (urandom : List ℕ) :
    myRand limit (0 :: urandom) = some (0, urandom) := by
  obtain ⟨b, hb⟩ := exists_bitpos h
  rw [myRand, hb, Option.bind_some, acceptUpTo, Nat.zero_and]
  exact if_neg (Nat.not_lt_zero limit)

/-! ## A run -/

/-- `WeightedPilot`. -/
structure WeightedPilot where
  duration : ℕ
  id : ℕ
  instr2 : ℕ
  /-- Not initialised with known results, as nothing reads it. -/
  instr2Absolute : ℕ := 0
  dataAddress : ℕ
  weight : ℕ
  deriving DecidableEq, Repr

/-- The trace row of a pilot. -/
def WeightedPilot.traceKey (variant : ℕ) (p : WeightedPilot) : ℕ × ℕ × ℕ := (variant, p.dataAddress, p.instr2)

/-- `SamplingPruner`: the options of a run, with what the environment does in it. -/
structure SamplingPruner where
  samplesize : ℕ
  useKnownResults : Bool := false
  weighting : Bool := true
  incremental : Bool := false
  /-- The order in which the database delivers the rows of a result. -/
  order : (α : Type) → List α → List α := fun _ rows => rows
  /-- The words of `/dev/urandom`. -/
  urandom : List ℕ

/-- `time2 - time1 + 1`, of unsigned 64-bit columns. The statement fails if a value is out of range. -/
def duration (row : TraceRow) : Option ℕ :=
  if row.time1 ≤ row.time2 ∧ row.time2 - row.time1 + 1 < 2 ^ 64 then some (row.time2 - row.time1 + 1) else none

/-- The reads of a variant. -/
def readsOf (trace : List TraceEntry) (variant : ℕ) : List TraceEntry :=
  trace.filter fun t => t.1 = variant ∧ t.2.accesstype = .read

/-- The pilots of a variant and a method whose outcome is not known. -/
def pilotsOf (fsppilot : List (ℕ × Pilot)) (variant methodId : ℕ) : List (ℕ × Pilot) :=
  fsppilot.filter fun p => p.2.knownOutcome = 0 ∧ p.2.fspmethodId = methodId ∧ p.2.variantId = variant

namespace SamplingPruner

section Run

variable (pruner : SamplingPruner) (methodId basicId variant : ℕ)

/-- `IFNULL(g.weight, 0)`, and 0 if the run is not incremental. The columns of the join are the primary key of
`fspgroup`. -/
def weightOfGroup (db : PruneDb) (t : TraceEntry) : ℕ :=
  if pruner.incremental then ((db.fspgroup.find (traceKey t, methodId)).bind Group.weight).getD 0 else 0

/-- The element of the population for a trace entry. -/
def elementOfRow (db : PruneDb) (t : TraceEntry) (duration instr2Absolute : ℕ) : WeightedPilot where
  instr2 := t.2.instr2
  instr2Absolute := instr2Absolute
  dataAddress := t.2.dataAddress
  duration := if pruner.weighting then duration else 1
  id := if pruner.incremental then ((db.fspgroup.find (traceKey t, methodId)).map Group.pilotId).getD 0 else 0
  weight := pruner.weightOfGroup methodId db t

/-- Load trace entries, and existing pilots. `strtoul` crashes if `instr2_absolute` is `NULL`. -/
def loadTrace (db : PruneDb) : Option (List WeightedPilot) :=
  (pruner.order _ (readsOf db.trace.rows variant)).mapM fun t =>
    (duration t.2).bind fun duration =>
      t.2.instr2Absolute.map fun instr2Absolute => pruner.elementOfRow methodId db t duration instr2Absolute

/-- The pilots of the basic pruner, joined with the trace. -/
def basicPilots (db : PruneDb) : List ((ℕ × Pilot) × TraceEntry) :=
  (pilotsOf db.fsppilot.rows variant basicId).flatMap fun p =>
    (db.trace.rows.filter fun t => traceKey t = p.2.traceKey).map fun t => (p, t)

/-- The element of the population for a pilot of the basic pruner and its trace entry. -/
def elementOfPilot (db : PruneDb) (p : ℕ × Pilot) (t : TraceEntry) (duration : ℕ) : WeightedPilot where
  id := p.1
  instr2 := p.2.instr2
  dataAddress := p.2.dataAddress
  duration := if pruner.weighting then duration else 1
  weight := pruner.weightOfGroup methodId db t

/-- Load the pilots of the basic pruner, and the weights of existing sampling pilots. -/
def loadPilots (db : PruneDb) : Option (List WeightedPilot) :=
  (pruner.order _ (basicPilots basicId variant db)).mapM fun x =>
    (duration x.2.2).map fun duration => pruner.elementOfPilot methodId db x.1 x.2 duration

def load (db : PruneDb) : Option (List WeightedPilot) :=
  if pruner.useKnownResults then pruner.loadPilots methodId basicId variant db
  else pruner.loadTrace methodId variant db

/-- The sample population: a sum tree with the default bucket size. -/
def population (loaded : List WeightedPilot) : SumTree WeightedPilot :=
  loaded.foldl (SumTree.add WeightedPilot.duration 1024) {}

/-- The variables of the loop over all samples. -/
structure Sampled where
  /-- The words that have not been read yet. -/
  urandom : List ℕ
  /-- The pilots `get` has returned so far. Each time, the weight of the pilot was incremented. -/
  drawn : List WeightedPilot := []
  /-- The rows of the `INSERT INTO fsppilot`. -/
  values : List Pilot := []

/-- The weight of a pilot of the population behind the increments. -/
def weightOf (drawn : List WeightedPilot) (p : WeightedPilot) : ℕ := (p.weight + drawn.count p) % 2 ^ 32

/-- The new pilot of a row that is drawn for the first time. -/
def pilotOf (p : WeightedPilot) : Pilot where
  knownOutcome := 0
  variantId := variant
  instr2 := p.instr2
  injectionInstr := p.instr2
  injectionInstrAbsolute := some p.instr2Absolute
  dataAddress := p.dataAddress
  dataWidth := 1
  fspmethodId := methodId

/-- One sample. -/
def sample (pop : SumTree WeightedPilot) (s : Sampled) : Option Sampled :=
  (myRand ((pop.getSize + 2 ^ 64 - 1) % 2 ^ 64) s.urandom).bind fun (pos, urandom) =>
    match pop.get WeightedPilot.duration pos with
    | .error _ => none
    | .ok p =>
      let drawn := s.drawn ++ [p]
      -- first time we sample this pilot?
      if pruner.useKnownResults = false ∧ weightOf drawn p = 1 then
        some { urandom, drawn, values := s.values ++ [pilotOf methodId variant p] }
      else some { s with urandom, drawn }

/-- The loop over all samples. -/
def sampleAll (pop : SumTree WeightedPilot) (s : Sampled) : ℕ → Option Sampled
  | 0 => some s
  | n + 1 => (pruner.sample methodId variant pop s).bind fun s => sampleAll pop s n

/-- `INSERT`, or `REPLACE` in an incremental run. -/
def writeGroups (fspgroup : Table Group.key) (rows : List Group) : Option (Table Group.key) :=
  if pruner.incremental then some (fspgroup.replace rows) else fspgroup.insert rows

/-- One group with weight 1 for every sampling pilot. -/
def groupsOfPilots (fsppilot : List (ℕ × Pilot)) : List Group :=
  (pilotsOf fsppilot variant methodId).map fun p =>
    { variantId := p.2.variantId, instr2 := p.2.instr2, dataAddress := p.2.dataAddress, fspmethodId := methodId
      pilotId := p.1, weight := some 1 }

/-- Updating the groups with weight > 1. -/
def updateWeights (drawn elements : List WeightedPilot) (fspgroup : Table Group.key) : Table Group.key :=
  (elements.filter fun p => 1 < weightOf drawn p).foldl
    (fun fspgroup p => fspgroup.update (p.traceKey variant, methodId)
      (fun g => { g with weight := some (weightOf drawn p) }) fun _ => rfl) fspgroup

/-- The groups of a run with known results. -/
def groupsOfKnown (drawn elements : List WeightedPilot) : List Group :=
  (elements.filter fun p => weightOf drawn p ≠ 0).map fun p =>
    { variantId := variant, instr2 := p.instr2, dataAddress := p.dataAddress, fspmethodId := methodId
      pilotId := p.id, weight := some (weightOf drawn p) }

/-- Writing back, with the elements the iterator of the population visits. -/
def writeBack (db : PruneDb) (s : Sampled) (elements : List WeightedPilot) : Option PruneDb :=
  if pruner.useKnownResults then
    (pruner.writeGroups db.fspgroup (groupsOfKnown methodId variant s.drawn elements)).map fun fspgroup =>
      { db with fspgroup }
  else
    let fsppilot := db.fsppilot.insert s.values
    (pruner.writeGroups db.fspgroup (groupsOfPilots methodId variant fsppilot.rows)).map fun fspgroup =>
      { db with fsppilot, fspgroup := updateWeights methodId variant s.drawn elements fspgroup }

/-- **`sampling_prune(variant)`**: the tables behind the run, and the trace rows that were drawn. -/
def samplingPrune (db : PruneDb) : Option (PruneDb × List (ℕ × ℕ × ℕ)) :=
  (pruner.load methodId basicId variant db).bind fun loaded =>
    let pop := population loaded
    (pruner.sampleAll methodId variant pop { urandom := pruner.urandom } pruner.samplesize).bind fun s =>
      (pruner.writeBack methodId variant db s (pop.root.entries pop.depth)).map fun db =>
        (db, s.drawn.map (WeightedPilot.traceKey variant))

end Run

/-- Runs one after the other, with all rows they draw. -/
def samplingRuns (methodId basicId variant : ℕ) :
    List SamplingPruner → PruneDb → Option (PruneDb × List (ℕ × ℕ × ℕ))
  | [], db => some (db, [])
  | run :: runs, db =>
    (run.samplingPrune methodId basicId variant db).bind fun x =>
      (samplingRuns methodId basicId variant runs x.1).map fun y => (y.1, x.2 ++ y.2)

/-! ## The loop over all samples -/

section Loop

variable {pruner : SamplingPruner} {methodId variant : ℕ} {pop : SumTree WeightedPilot}
    {elements : List WeightedPilot}
  {s : Sampled} {p : WeightedPilot}

/-- **The population**, if its size is a 64-bit number. -/
theorem represents_population {loaded : List WeightedPilot}
    (hbound : totalSize WeightedPilot.duration loaded < 2 ^ 64) (hpositive : ∀ p ∈ loaded, 0 < p.duration) :
    (population loaded).Represents WeightedPilot.duration 1024 loaded := by
  have h := SumTree.represents_foldl_add (by decide : 2 ≤ 1024) loaded hbound
  rwa [List.filter_eq_self.mpr fun p hp => by simpa using (hpositive p hp).ne'] at h

/-- A population from which numbers can be drawn. -/
structure Drawable (pop : SumTree WeightedPilot) (elements : List WeightedPilot) : Prop where
  represents : pop.Represents WeightedPilot.duration 1024 elements
  positive : 0 < totalSize WeightedPilot.duration elements
  small : totalSize WeightedPilot.duration elements ≤ 2 ^ 63

/-- The largest random number that is drawn. -/
def limitOf (elements : List WeightedPilot) : ℕ := totalSize WeightedPilot.duration elements - 1

/-- **One sample**: the next accepted number picks an element. -/
theorem sample_eq (pruner : SamplingPruner) (methodId variant : ℕ) (h : Drawable pop elements) {r : ℕ}
    {rs : List ℕ} (hnext : accepted (limitOf elements) s.urandom = r :: rs) :
    ∃ p ∈ elements, ∃ s', pruner.sample methodId variant pop s = some s' ∧ s'.drawn = s.drawn ++ [p] ∧
      accepted (limitOf elements) s'.urandom = rs ∧
      s'.values = if pruner.useKnownResults = false ∧ weightOf (s.drawn ++ [p]) p = 1 then
        s.values ++ [pilotOf methodId variant p] else s.values := by
  have hpositive := h.positive
  have hsmall := h.small
  have hsize := h.represents.getSize_eq
  have hlimit : (pop.getSize + 2 ^ 64 - 1) % 2 ^ 64 = limitOf elements := by
    rw [hsize, limitOf]
    omega
  obtain ⟨hr, urandom', hrand, hrest⟩ := myRand_of_accepted (by rw [limitOf]; omega) hnext
  have hpos : r < pop.getSize := by
    rw [hsize]
    rw [limitOf] at hr
    omega
  -- the number is a position on the wheel, and the tree finds the element there
  obtain ⟨i, p, -, hpicks, hget, -, -⟩ := h.represents.finds hpos (by omega)
  refine ⟨p, List.mem_of_getElem? hpicks.getElem, ?_⟩
  rw [sample, hlimit, hrand, Option.bind_some]
  dsimp only
  rw [hget]
  dsimp only
  split
  · exact ⟨_, rfl, rfl, hrest, rfl⟩
  · exact ⟨_, rfl, rfl, hrest, rfl⟩

/-- The rows of new pilots are those of the elements that have been drawn and had no weight. -/
def Noted (methodId variant : ℕ) (s : Sampled) : Prop :=
  ∃ ps : List WeightedPilot, s.values = ps.map (pilotOf methodId variant) ∧ ps.Nodup ∧
    ∀ p, p ∈ ps ↔ p ∈ s.drawn ∧ p.weight = 0

theorem weightOf_concat_eq_one_iff {drawn : List WeightedPilot} (h : p.weight + drawn.length + 1 < 2 ^ 32) :
    weightOf (drawn ++ [p]) p = 1 ↔ p.weight = 0 ∧ p ∉ drawn := by
  have hcount := List.count_le_length (a := p) (l := drawn)
  rw [weightOf, List.count_append, List.count_singleton_self, Nat.mod_eq_of_lt (by omega), ← List.count_eq_zero]
  omega

theorem Noted.concat (h : Noted methodId variant s) (hbound : p.weight + s.drawn.length + 1 < 2 ^ 32)
    {s' : Sampled} (hdrawn : s'.drawn = s.drawn ++ [p])
    (hvalues : s'.values = if weightOf (s.drawn ++ [p]) p = 1 then s.values ++ [pilotOf methodId variant p]
      else s.values) : Noted methodId variant s' := by
  obtain ⟨ps, hps, hnodup, hmem⟩ := h
  by_cases hone : weightOf (s.drawn ++ [p]) p = 1
  · -- the element is drawn for the first time in all runs
    rw [if_pos hone] at hvalues
    rw [weightOf_concat_eq_one_iff hbound] at hone
    refine ⟨ps ++ [p], by rw [hvalues, hps, List.map_append, List.map_singleton], ?_, ?_⟩
    · rw [← List.concat_eq_append]
      exact hnodup.concat fun hp => hone.2 ((hmem p).mp hp).1
    · intro q
      rw [hdrawn, List.mem_append, List.mem_append, hmem, List.mem_singleton, or_and_right]
      exact or_congr_right ⟨fun hq => ⟨hq, hq ▸ hone.1⟩, And.left⟩
  · rw [if_neg hone] at hvalues
    rw [weightOf_concat_eq_one_iff hbound, not_and, not_not] at hone
    refine ⟨ps, hvalues.trans hps, hnodup, fun q => ?_⟩
    rw [hdrawn, hmem, List.mem_append, List.mem_singleton]
    refine ⟨fun hq => ⟨Or.inl hq.1, hq.2⟩, ?_⟩
    rintro ⟨hq | rfl, hzero⟩
    · exact ⟨hq, hzero⟩
    · exact ⟨hone hzero, hzero⟩

/-- **The loop over all samples** draws as many elements as requested. -/
theorem sampleAll_eq (pruner : SamplingPruner) {methodId variant : ℕ} (h : Drawable pop elements) {n : ℕ}
    (hnoted : pruner.useKnownResults = false → Noted methodId variant s)
    (hweight : ∀ p ∈ elements, p.weight + s.drawn.length + n < 2 ^ 32)
    (hsupply : n ≤ (accepted (limitOf elements) s.urandom).length) :
    ∃ s' new, pruner.sampleAll methodId variant pop s n = some s' ∧ s'.drawn = s.drawn ++ new ∧ new.length = n ∧
      (∀ p ∈ new, p ∈ elements) ∧ (pruner.useKnownResults = false → Noted methodId variant s') := by
  induction n generalizing s with
  | zero => exact ⟨s, [], rfl, (List.append_nil _).symm, rfl, by simp, hnoted⟩
  | succ n ih =>
    obtain ⟨r, rs, hnext⟩ := List.exists_cons_of_length_pos (Nat.lt_of_lt_of_le (Nat.succ_pos n) hsupply)
    obtain ⟨p, hp, s₁, hsample, hdrawn, hrest, hvalues⟩ :=
      sample_eq pruner methodId variant h hnext
    -- weights do not wrap within the run
    have hlen : s₁.drawn.length = s.drawn.length + 1 := by
      rw [hdrawn, List.length_append, List.length_singleton]
    have hnoted₁ : pruner.useKnownResults = false → Noted methodId variant s₁ := by
      intro hknown
      have := hweight p hp
      refine (hnoted hknown).concat (by omega) hdrawn (hvalues.trans ?_)
      simp only [hknown, true_and]
    rw [hnext, List.length_cons] at hsupply
    obtain ⟨s', new, hall, hdrawn', hnew, hmem, hnoted'⟩ := ih hnoted₁
      (fun q hq => by have := hweight q hq; omega) (by rw [hrest]; omega)
    refine ⟨s', p :: new, ?_, ?_, ?_, ?_, hnoted'⟩
    · rw [sampleAll, hsample, Option.bind_some]
      exact hall
    · rw [hdrawn', hdrawn, List.append_assoc]
      rfl
    · rw [List.length_cons, hnew]
    · exact List.forall_mem_cons.mpr ⟨hp, hmem⟩

end Loop

end SamplingPruner

end FailStar.PruneTrace
