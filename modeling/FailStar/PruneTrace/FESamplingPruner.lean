import FailStar.ImportTrace.CompleteRows
import FailStar.PruneTrace.SamplingPruner

/-! # Sampling with fault expansion

`FESamplingPruner` draws rows of the trace without replacement: every number that is drawn takes its row out of
the population. The number of iterations is that of the loaded rows, whereas the population drops rows without a
duration.

* **`FESamplingPruner.samplingPrune`** — a run on one variant: load the population, remove, write back.
* **`Remaining`** — the invariant of the loop: what has been drawn and what is left are the rows that were kept.
* **`never_runs_dry_iff`** — when every iteration draws a row; and when `SamplingPruner` draws from nothing. -/

namespace FailStar.PruneTrace

open ImportTrace

/-! ## A run -/

/-- `Pilot`: an element of the sample population. -/
structure FEPilot where
  duration : ℕ
  instr2 : ℕ
  /-- The union of `instr2_absolute` and `id`. It is an `id` with known results. -/
  absoluteOrId : ℕ
  dataAddress : ℕ
  deriving DecidableEq, Repr

/-- `FESamplingPruner`: the options of a run, with what the environment does in it. -/
structure FESamplingPruner where
  samplesize : ℕ := 0
  useKnownResults : Bool := false
  weighting : Bool := true
  /-- The order in which the database delivers the rows of a result. -/
  order : (α : Type) → List α → List α := fun _ rows => rows
  /-- The words of `/dev/urandom`. -/
  urandom : List ℕ

namespace FESamplingPruner

section Run

variable (pruner : FESamplingPruner) (methodId basicId variant : ℕ)

/-- `m_weighting ? duration : 1`. -/
def weigh (duration : ℕ) : ℕ := if pruner.weighting then duration else 1

/-- Load trace entries. `strtoul` crashes if `instr2_absolute` is `NULL`. -/
def loadTrace (db : PruneDb) : Option (List FEPilot) :=
  (pruner.order _ (readsOf db.trace.rows variant)).mapM fun t =>
    (duration t.2).bind fun duration => t.2.instr2Absolute.map fun instr2Absolute =>
      { duration := pruner.weigh duration, instr2 := t.2.instr2, absoluteOrId := instr2Absolute
        dataAddress := t.2.dataAddress }

/-- Load the pilots of the basic pruner, joined with the trace. -/
def loadPilots (db : PruneDb) : Option (List FEPilot) :=
  (pruner.order _ (SamplingPruner.basicPilots basicId variant db)).mapM fun x =>
    (duration x.2.2).map fun duration =>
      { duration := pruner.weigh duration, instr2 := x.1.2.instr2, absoluteOrId := x.1.1
        dataAddress := x.1.2.dataAddress }

def load (db : PruneDb) : Option (List FEPilot) :=
  if pruner.useKnownResults then pruner.loadPilots basicId variant db else pruner.loadTrace variant db

/-- The sample population. -/
def population (loaded : List FEPilot) : SumTree FEPilot := loaded.foldl (SumTree.add FEPilot.duration 1024) {}

/-- `std::min(pilotcount, m_samplesize)`: rows count even if the population has dropped them. -/
def samplerows (samplesize : ℕ) (loaded : List FEPilot) : ℕ := min loaded.length samplesize

/-- The variables of the loop. -/
structure Sampling where
  /-- The words that have not been read yet. -/
  urandom : List ℕ
  pop : SumTree FEPilot
  /-- The pilots `remove` has returned so far, which are written to the database. -/
  drawn : List FEPilot := []

/-- `pop.get_size() - 1`, of a 64-bit number. -/
def Sampling.limit (s : Sampling) : ℕ := (s.pop.getSize + 2 ^ 64 - 1) % 2 ^ 64

/-- One iteration. -/
def removeOne (s : Sampling) : Option Sampling :=
  (myRand s.limit s.urandom).bind fun (pos, urandom) =>
    match s.pop.remove FEPilot.duration pos with
    | .error _ => none
    | .ok (p, pop) => some { urandom, pop, drawn := s.drawn ++ [p] }

/-- The loop. -/
def removeAll (s : Sampling) : ℕ → Option Sampling
  | 0 => some s
  | n + 1 => (removeOne s).bind fun s => removeAll s n

/-- The new pilot of a row that was drawn. -/
def pilotOf (p : FEPilot) : Pilot where
  knownOutcome := 0
  variantId := variant
  instr2 := p.instr2
  injectionInstr := p.instr2
  injectionInstrAbsolute := some p.absoluteOrId
  dataAddress := p.dataAddress
  dataWidth := 1
  fspmethodId := methodId

/-- The pilot of the first write, which is that of the basic pruner. -/
def writePilots (trace : List TraceEntry) : List Pilot :=
  let basic : BasicPruner := { methodId, variants := [variant], order := pruner.order TraceEntry }
  (basic.firstWrite trace variant).map (basic.pilotOf 1)

/-- One group for every pilot of a method, with a known outcome or without. -/
def groupsOfPilots (fsppilot : List (ℕ × Pilot)) (knownOutcome pilotMethodId : ℕ) : List Group :=
  (fsppilot.filter fun p =>
      p.2.knownOutcome = knownOutcome ∧ p.2.fspmethodId = pilotMethodId ∧ p.2.variantId = variant).map fun p =>
    { variantId := p.2.variantId, instr2 := p.2.instr2, dataAddress := p.2.dataAddress, fspmethodId := methodId
      pilotId := p.1 }

/-- The group of a pilot with known results. -/
def groupOfKnown (p : FEPilot) : Group where
  variantId := variant
  instr2 := p.instr2
  dataAddress := p.dataAddress
  fspmethodId := methodId
  pilotId := p.absoluteOrId

/-- `insert_multiple`: statements for 2048 rows each, whose failure is ignored. -/
def insertMultiple (fspgroup : Table Group.key) (rows : List Group) : Table Group.key :=
  (rows.toChunks 2048).foldl (fun fspgroup batch => (fspgroup.insert batch).getD fspgroup) fspgroup

/-- The statements behind the loop. The last one makes *one* group for known trace entries. -/
def writeBack (db : PruneDb) (drawn : List FEPilot) : Option PruneDb :=
  if pruner.useKnownResults then
    let fspgroup := insertMultiple db.fspgroup (drawn.map (groupOfKnown methodId variant))
    -- the pilot with a known outcome has been determined with the "basic" method
    (fspgroup.insert (groupsOfPilots methodId variant db.fsppilot.rows 1 basicId)).map fun fspgroup =>
      { db with fspgroup }
  else
    let fsppilot := (db.fsppilot.insert (drawn.map (pilotOf methodId variant))).insert
      (pruner.writePilots methodId variant db.trace.rows)
    (db.fspgroup.insert (groupsOfPilots methodId variant fsppilot.rows 0 methodId)).bind fun fspgroup =>
      (fspgroup.insert (groupsOfPilots methodId variant fsppilot.rows 1 methodId)).map fun fspgroup =>
        { db with fsppilot, fspgroup }

/-- **`sampling_prune(variant)`**. -/
def samplingPrune (db : PruneDb) : Option PruneDb :=
  (pruner.load basicId variant db).bind fun loaded =>
    (removeAll { urandom := pruner.urandom, pop := population loaded }
      (samplerows pruner.samplesize loaded)).bind
      fun s => pruner.writeBack methodId basicId variant db s.drawn

end Run

/-! ## The loop -/

section Loop

variable {loaded rest : List FEPilot} {s s' : Sampling} {n : ℕ}

@[simp] theorem removeAll_succ (s : Sampling) (n : ℕ) :
    removeAll s (n + 1) = (removeOne s).bind fun s => removeAll s n := rfl

/-- The loaded rows that the population keeps. -/
def kept (loaded : List FEPilot) : List FEPilot := loaded.filter fun p => p.duration ≠ 0

theorem kept_sublist (loaded : List FEPilot) : (kept loaded).Sublist loaded := List.filter_sublist

theorem totalSize_kept (loaded : List FEPilot) :
    totalSize FEPilot.duration (kept loaded) = totalSize FEPilot.duration loaded := by
  induction loaded with
  | nil => rfl
  | cons p loaded ih =>
    rw [kept] at ih ⊢
    by_cases hzero : p.duration = 0
    · rw [List.filter_cons_of_neg (by simpa using hzero), totalSize_cons, hzero, Nat.zero_add, ih]
    · rw [List.filter_cons_of_pos (by simpa using hzero), totalSize_cons, totalSize_cons, ih]

theorem represents_population (hsize : totalSize FEPilot.duration loaded < 2 ^ 64) :
    (population loaded).Represents FEPilot.duration 1024 (kept loaded) :=
  SumTree.represents_foldl_add (by decide : 2 ≤ 1024) loaded hsize

/-- **What has been drawn and what is left** are the rows that were kept; numbers can be drawn from what is
left. -/
structure Remaining (loaded : List FEPilot) (s : Sampling) (rest : List FEPilot) : Prop where
  represents : s.pop.Represents FEPilot.duration 1024 rest
  perm : (s.drawn ++ rest).Perm (kept loaded)
  small : totalSize FEPilot.duration rest ≤ 2 ^ 63

theorem remaining_start (hsmall : totalSize FEPilot.duration loaded ≤ 2 ^ 63) (urandom : List ℕ) :
    Remaining loaded { urandom, pop := population loaded } (kept loaded) :=
  ⟨represents_population (by omega), List.Perm.refl _, by rwa [totalSize_kept]⟩

/-- The largest number that is drawn, as long as something is left. -/
theorem Remaining.limit_eq (h : Remaining loaded s rest) (hne : rest ≠ []) :
    s.limit = s.pop.getSize - 1 ∧ 0 < s.pop.getSize ∧ s.pop.getSize ≤ 2 ^ 63 := by
  have hsmall := h.small
  have hpos : 0 < totalSize FEPilot.duration rest := by
    have hlength := h.represents.length_le
    have := List.length_pos_of_ne_nil hne
    omega
  rw [Sampling.limit, h.represents.getSize_eq]
  omega

/-- **One iteration** takes a row out of what is left. -/
theorem Remaining.removes (h : Remaining loaded s rest) (hne : rest ≠ []) {pos : ℕ} {urandom : List ℕ}
    (hrand : myRand s.limit s.urandom = some (pos, urandom)) :
    pos < s.pop.getSize ∧ ∃ p pop rest', s.pop.remove FEPilot.duration pos = .ok (p, pop) ∧
      Remaining loaded { urandom, pop, drawn := s.drawn ++ [p] } rest' := by
  obtain ⟨hlimit, hsize, -⟩ := h.limit_eq hne
  have hle := myRand_le hrand
  have hpos : pos < s.pop.getSize := by omega
  have hsmall := h.small
  obtain ⟨i, p, pop, hpicks, -, hremove, hrepresents⟩ := h.represents.finds hpos (by omega)
  refine ⟨hpos, p, pop, rest.eraseIdx i, hremove, hrepresents, ?_, ?_⟩
  · -- the row moves from what is left to what has been drawn
    have hrow : (p :: rest.eraseIdx i).Perm rest := by
      have hget := hpicks.getElem
      rw [List.getElem?_eq_getElem hpicks.lt_length] at hget
      rw [← Option.some.inj hget]
      exact List.getElem_cons_eraseIdx_perm hpicks.lt_length
    rw [List.append_assoc]
    exact (hrow.append_left s.drawn).trans h.perm
  · have hsum : totalSize FEPilot.duration (rest.eraseIdx i) + p.duration = totalSize FEPilot.duration rest :=
      totalSize_eraseIdx hpicks.getElem
    show totalSize FEPilot.duration (rest.eraseIdx i) ≤ 2 ^ 63
    omega

theorem removeOne_eq_some (h : removeOne s = some s') :
    ∃ pos urandom p pop, myRand s.limit s.urandom = some (pos, urandom) ∧
      s.pop.remove FEPilot.duration pos = .ok (p, pop) ∧ s' = { urandom, pop, drawn := s.drawn ++ [p] } := by
  obtain ⟨⟨pos, urandom⟩, hrand, hremove⟩ := Option.bind_eq_some_iff.mp h
  dsimp only at hremove
  split at hremove
  · cases hremove
  · rename_i p pop heq
    exact ⟨pos, urandom, p, pop, hrand, heq, (Option.some.inj hremove).symm⟩

theorem Remaining.removeOne (h : Remaining loaded s rest) (hne : rest ≠ []) (hstep : removeOne s = some s') :
    ∃ rest', Remaining loaded s' rest' ∧ s'.drawn.length = s.drawn.length + 1 := by
  obtain ⟨pos, urandom, p, pop, hrand, hremove, rfl⟩ := removeOne_eq_some hstep
  obtain ⟨-, p', pop', rest', hremove', h'⟩ := h.removes hne hrand
  obtain ⟨rfl, rfl⟩ := Prod.mk.inj (Except.ok.inj (hremove.symm.trans hremove'))
  exact ⟨rest', h', List.length_append⟩

/-- What is left has the length that is missing. -/
theorem Remaining.length_add (h : Remaining loaded s rest) :
    s.drawn.length + rest.length = (kept loaded).length := by
  rw [← List.length_append]
  exact h.perm.length_eq

/-- **The loop** keeps the invariant, as long as something is left in front of every iteration. -/
theorem Remaining.removeAll (h : Remaining loaded s rest) (hn : n ≤ rest.length)
    (hrun : removeAll s n = some s') :
    ∃ rest', Remaining loaded s' rest' ∧ s'.drawn.length = s.drawn.length + n := by
  induction n generalizing s rest with
  | zero =>
    obtain rfl : s = s' := Option.some.inj hrun
    exact ⟨rest, h, rfl⟩
  | succ n ih =>
    obtain ⟨s₁, hstep, hrun⟩ := Option.bind_eq_some_iff.mp hrun
    obtain ⟨rest₁, h₁, hlen⟩ := h.removeOne (List.ne_nil_of_length_pos (by omega)) hstep
    have hsum := h.length_add
    have hsum₁ := h₁.length_add
    obtain ⟨rest', h', hlen'⟩ := ih h₁ (by omega) hrun
    exact ⟨rest', h', by omega⟩

/-- **Every iteration can be reached**: the random source may deliver zeros. -/
theorem Remaining.exists_removeAll (h : Remaining loaded s rest) (hn : n ≤ rest.length)
    (hurandom : s.urandom = List.replicate n 0) : ∃ s', FESamplingPruner.removeAll s n = some s' := by
  induction n generalizing s rest with
  | zero => exact ⟨s, rfl⟩
  | succ n ih =>
    have hne : rest ≠ [] := List.ne_nil_of_length_pos (by omega)
    obtain ⟨hlimit, hpos, hsize⟩ := h.limit_eq hne
    have hrand : myRand s.limit s.urandom = some (0, List.replicate n 0) := by
      rw [hurandom, List.replicate_succ]
      exact myRand_zero (by omega) _
    obtain ⟨-, p, pop, rest', hremove, h'⟩ := h.removes hne hrand
    have hstep : FESamplingPruner.removeOne s =
        some { urandom := List.replicate n 0, pop, drawn := s.drawn ++ [p] } := by
      rw [FESamplingPruner.removeOne, hrand, Option.bind_some]
      simp only [hremove]
    have hsum := h.length_add
    have hsum' := h'.length_add
    rw [List.length_append, List.length_singleton] at hsum'
    obtain ⟨s', hrun⟩ := ih h' (by omega) rfl
    exact ⟨s', by rw [removeAll_succ, hstep, Option.bind_some, hrun]⟩

end Loop

/-! ## Running dry -/

/-- An iteration is ready: the limit is a number `my_rand` can shift, and for every number it returns `remove`
finds a row at a position below the size of the population. -/
def Sampling.Ready (s : Sampling) : Prop :=
  (bitpos s.limit).isSome ∧ ∀ pos urandom, myRand s.limit s.urandom = some (pos, urandom) →
    pos < s.pop.getSize ∧ ∃ p pop, s.pop.remove FEPilot.duration pos = .ok (p, pop)

/-- **Sampling without replacement does not run dry**: for all words of the random source, the rows drawn so far
are different loaded rows, and the next iteration is ready. -/
def NeverRunsDry (samplesize : ℕ) (loaded : List FEPilot) : Prop :=
  ∀ urandom n s, n ≤ samplerows samplesize loaded →
    removeAll { urandom, pop := population loaded } n = some s →
    s.drawn.length = n ∧ s.drawn.Subperm loaded ∧ (n < samplerows samplesize loaded → s.Ready)

section Dry

variable {loaded rest : List FEPilot} {s : Sampling} {samplesize : ℕ}

theorem Remaining.ready (h : Remaining loaded s rest) (hne : rest ≠ []) : s.Ready := by
  obtain ⟨hlimit, hpos, hsize⟩ := h.limit_eq hne
  refine ⟨isSome_bitpos_iff.mpr (by omega), fun pos urandom hrand => ?_⟩
  obtain ⟨hlt, p, pop, -, hremove, -⟩ := h.removes hne hrand
  exact ⟨hlt, p, pop, hremove⟩

theorem Remaining.subperm (h : Remaining loaded s rest) : s.drawn.Subperm loaded :=
  (List.sublist_append_left s.drawn rest).subperm.trans (h.perm.subperm.trans (kept_sublist loaded).subperm)

/-- Nothing can be drawn from an empty population, nor from one that is too large. -/
theorem Sampling.Ready.bounds (h : s.Ready) (hsize : s.pop.getSize < 2 ^ 64) :
    0 < s.pop.getSize ∧ s.pop.getSize ≤ 2 ^ 63 := by
  have hlimit := isSome_bitpos_iff.mp h.1
  rw [Sampling.limit] at hlimit
  omega

/-- **When sampling without replacement does not run dry.** -/
theorem neverRunsDry_iff (hsize : totalSize FEPilot.duration loaded < 2 ^ 64) :
    NeverRunsDry samplesize loaded ↔ samplerows samplesize loaded = 0 ∨
      (totalSize FEPilot.duration loaded ≤ 2 ^ 63 ∧ samplerows samplesize loaded ≤ (kept loaded).length) := by
  constructor
  · intro h
    rcases Nat.eq_zero_or_pos (samplerows samplesize loaded) with hzero | hpos
    · exact Or.inl hzero
    · -- the first iteration shows that the population is not too large
      have hready := (h [] 0 _ (Nat.zero_le _) rfl).2.2 hpos
      have hstart := (represents_population hsize).getSize_eq
      rw [totalSize_kept] at hstart
      have hbounds := hready.bounds (hstart ▸ hsize)
      rw [hstart] at hbounds
      refine Or.inr ⟨hbounds.2, Nat.le_of_not_lt fun hlt => ?_⟩
      -- the one behind the last row that was kept finds nothing
      have hremaining := remaining_start hbounds.2 (List.replicate (kept loaded).length 0)
      obtain ⟨s, hrun⟩ := hremaining.exists_removeAll le_rfl rfl
      obtain ⟨rest, hrest, -⟩ := hremaining.removeAll le_rfl hrun
      obtain ⟨hlen, -, hready⟩ := h _ _ s hlt.le hrun
      have hnil : rest = [] := by
        have hsum := hrest.length_add
        exact List.eq_nil_of_length_eq_zero (by omega)
      have hempty := hrest.represents.getSize_eq
      rw [hnil, totalSize_nil] at hempty
      exact absurd ((hready hlt).bounds (by omega)).1 (by omega)
  · rintro (hzero | ⟨hsmall, hkept⟩) urandom n s hn hrun
    · -- there is no iteration
      rw [hzero] at hn ⊢
      obtain rfl := Nat.le_zero.mp hn
      obtain rfl := Option.some.inj hrun
      exact ⟨rfl, List.nil_subperm, fun hlt => absurd hlt (Nat.lt_irrefl 0)⟩
    · obtain ⟨rest, hrest, hlen⟩ := (remaining_start hsmall urandom).removeAll (hn.trans hkept) hrun
      rw [List.length_nil, Nat.zero_add] at hlen
      refine ⟨hlen, hrest.subperm, fun hlt => hrest.ready (List.ne_nil_of_length_pos ?_)⟩
      have := hrest.length_add
      omega

end Dry

end FESamplingPruner

/-! ## Both pruners -/

theorem mapM_eq_none {α β : Type} {f : α → Option β} {xs : List α} {x : α} (hx : x ∈ xs) (hnone : f x = none) :
    xs.mapM f = none := by
  rw [Option.eq_none_iff_forall_ne_some]
  intro ys hys
  induction xs generalizing ys with
  | nil => cases hx
  | cons x' xs ih =>
    rw [List.mapM_cons] at hys
    obtain ⟨y, hfirst, hys⟩ := Option.bind_eq_some_iff.mp hys
    obtain ⟨ys', hrest, -⟩ := Option.bind_eq_some_iff.mp hys
    rcases List.mem_cons.mp hx with rfl | hx
    · rw [hnone] at hfirst
      cases hfirst
    · exact ih hx ys' hrest

/-- **A read without an instruction address stops both pruners.** -/
theorem loadTrace_of_incomplete {variant : ℕ} {db : PruneDb} {row : TraceRow}
    (hrow : (variant, row) ∈ db.trace.rows) (hincomplete : row.Incomplete) :
    (∀ pruner : FESamplingPruner, (∀ rows, (pruner.order TraceEntry rows).Perm rows) →
      pruner.loadTrace variant db = none) ∧
    (∀ (pruner : SamplingPruner) (methodId : ℕ), (∀ rows, (pruner.order TraceEntry rows).Perm rows) →
      pruner.loadTrace methodId variant db = none) := by
  have hread : (variant, row) ∈ readsOf db.trace.rows variant :=
    List.mem_filter.mpr ⟨hrow, decide_eq_true ⟨rfl, hincomplete.1⟩⟩
  constructor
  · intro pruner horder
    refine mapM_eq_none ((horder _).mem_iff.mpr hread) ?_
    rw [hincomplete.2]
    exact Option.bind_fun_none _
  · intro pruner methodId horder
    refine mapM_eq_none ((horder _).mem_iff.mpr hread) ?_
    rw [hincomplete.2]
    exact Option.bind_fun_none _

/-- **`SamplingPruner` does not draw from nothing**: the population has a size whenever a sample is taken. -/
def SamplingPruner.DrawsFromRows (pruner : SamplingPruner) (methodId variant : ℕ) (loaded : List WeightedPilot) :
    Prop :=
  ∀ n s, n < pruner.samplesize →
    pruner.sampleAll methodId variant (SamplingPruner.population loaded)
      { urandom := pruner.urandom } n = some s →
    0 < (SamplingPruner.population loaded).getSize

theorem SamplingPruner.drawsFromRows_iff (pruner : SamplingPruner) (methodId variant : ℕ)
    {loaded : List WeightedPilot} (hsize : totalSize WeightedPilot.duration loaded < 2 ^ 64) :
    pruner.DrawsFromRows methodId variant loaded ↔ pruner.samplesize = 0 ∨ ∃ p ∈ loaded, 0 < p.duration := by
  have hrep : (SamplingPruner.population loaded).Represents WeightedPilot.duration 1024
      (loaded.filter fun p => p.duration ≠ 0) := SumTree.represents_foldl_add (by decide : 2 ≤ 1024) loaded hsize
  have hpositive : 0 < (SamplingPruner.population loaded).getSize ↔ ∃ p ∈ loaded, 0 < p.duration := by
    rw [hrep.getSize_eq]
    constructor
    · intro hpos
      obtain ⟨p, hp⟩ := List.exists_mem_of_ne_nil (loaded.filter fun p => p.duration ≠ 0) (by
        intro hnil
        rw [hnil] at hpos
        exact Nat.lt_irrefl 0 hpos)
      obtain ⟨hp, hne⟩ := List.mem_filter.mp hp
      exact ⟨p, hp, Nat.pos_of_ne_zero (of_decide_eq_true hne)⟩
    · rintro ⟨p, hp, hpos⟩
      exact hpos.trans_le (le_totalSize (List.mem_filter.mpr ⟨hp, decide_eq_true hpos.ne'⟩))
  rw [← hpositive]
  constructor
  · intro h
    -- the first sample is taken in any case
    exact (Nat.eq_zero_or_pos pruner.samplesize).imp_right fun hpos => h 0 _ hpos rfl
  · rintro (hzero | hpos) n s hn hrun
    · omega
    · exact hpos

/-- **When sampling runs dry.** For all rows whose total duration is a 64-bit number, `FESamplingPruner` draws
different rows in all iterations, from a population that is not empty, exactly if there is no iteration, or the
total duration is at most `2 ^ 63` and at least as many rows as there are iterations have a duration.
`SamplingPruner` draws from a population without a size unless no sample is requested or a row has a duration. -/
theorem never_runs_dry_iff (samplesize : ℕ) (loaded : List FEPilot)
    (hsize : totalSize FEPilot.duration loaded < 2 ^ 64) (pruner : SamplingPruner) (methodId variant : ℕ)
    (weighted : List WeightedPilot) (hweighted : totalSize WeightedPilot.duration weighted < 2 ^ 64) :
    (FESamplingPruner.NeverRunsDry samplesize loaded ↔
      FESamplingPruner.samplerows samplesize loaded = 0 ∨ (totalSize FEPilot.duration loaded ≤ 2 ^ 63 ∧
        FESamplingPruner.samplerows samplesize loaded ≤ (FESamplingPruner.kept loaded).length)) ∧
    (pruner.DrawsFromRows methodId variant weighted ↔ pruner.samplesize = 0 ∨ ∃ p ∈ weighted, 0 < p.duration) :=
  ⟨FESamplingPruner.neverRunsDry_iff hsize, pruner.drawsFromRows_iff methodId variant hweighted⟩

/-- Two samples from three rows, one of which was dropped. -/
theorem never_runs_dry_three_rows :
    FESamplingPruner.NeverRunsDry 2 [⟨3, 4, 100, 16⟩, ⟨0, 5, 101, 17⟩, ⟨2, 6, 102, 18⟩] :=
  (never_runs_dry_iff 2 [⟨3, 4, 100, 16⟩, ⟨0, 5, 101, 17⟩, ⟨2, 6, 102, 18⟩] (by decide)
    { samplesize := 0, urandom := [] } 0 0 [] (by decide)).1.mpr (by decide)

/-- **Sampling runs dry.** One sample from one row without a duration, and one sample of a variant without reads:
the limit of the random numbers is `2 ^ 64 - 1`. -/
theorem sampling_runs_dry :
    ¬ FESamplingPruner.NeverRunsDry 1 [⟨0, 4, 100, 16⟩] ∧
    ¬ SamplingPruner.DrawsFromRows { samplesize := 1, urandom := [] } 0 0 [] := by
  constructor
  · intro h
    exact absurd (h [] 0 _ (by decide) rfl).2.2 (by
      intro hready
      exact absurd (hready (by decide)).1 (by decide))
  · intro h
    exact absurd (h 0 _ (by decide) rfl) (by decide)

end FailStar.PruneTrace
