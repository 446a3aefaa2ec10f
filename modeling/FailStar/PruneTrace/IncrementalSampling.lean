import FailStar.PruneTrace.SamplingPruner

/-! # Incremental sampling

Runs of the sampling pruner add up: the weight of a group is the number of times its row was drawn in all of
them, with and without known results.

* **`Loaded`** — what a run knows about the population: the reads of the variant, with their weights.
* **`Accumulated`** — the invariant between runs, kept by a run without known results
  (`Accumulated.writeBack_sampled`) and with them (`Accumulated.writeBack_known`).
* **`sampling_accumulates`** — all runs. They need `instr2_absolute` of all reads, and a population of 2^63 at
  most. -/

namespace FailStar.PruneTrace

open ImportTrace

namespace SamplingPruner

/-! ## The population -/

/-- The size of a row in the population. -/
def sizeOfRow (weighting : Bool) (t : TraceEntry) : ℕ := if weighting then t.2.time2 - t.2.time1 + 1 else 1

/-- The size of the population. -/
def populationSize (db : PruneDb) (variant : ℕ) (weighting : Bool) : ℕ :=
  totalSize (sizeOfRow weighting) (readsOf db.trace.rows variant)

/-- The durations are numbers the database can compute. -/
abbrev HasDurations (db : PruneDb) (variant : ℕ) : Prop :=
  ∀ t ∈ readsOf db.trace.rows variant, t.2.time1 ≤ t.2.time2 ∧ t.2.time2 - t.2.time1 + 1 < 2 ^ 64

/-- **Every read of the variant has one pilot of the basic pruner.** -/
structure BasicPruned (db : PruneDb) (basicId variant : ℕ) : Prop where
  unique : ((pilotsOf db.fsppilot.rows variant basicId).map fun p => p.2.traceKey).Nodup
  keys : ∀ k, k ∈ ((pilotsOf db.fsppilot.rows variant basicId).map fun p => p.2.traceKey) ↔
    k ∈ (readsOf db.trace.rows variant).map traceKey

/-- The database delivers all rows of a result in some order. -/
def Delivers (pruner : SamplingPruner) : Prop := ∀ (α : Type) (rows : List α), (pruner.order α rows).Perm rows

variable {pruner : SamplingPruner} {methodId basicId variant : ℕ} {db : PruneDb} {drawn : List (ℕ × ℕ × ℕ)}
  {t : TraceEntry} {p : WeightedPilot}

theorem mem_readsOf {trace : List TraceEntry} :
    t ∈ readsOf trace variant ↔ t ∈ trace ∧ t.1 = variant ∧ t.2.accesstype = .read := by
  simp [readsOf]

theorem mem_pilotsOf {fsppilot : List (ℕ × Pilot)} {x : ℕ × Pilot} :
    x ∈ pilotsOf fsppilot variant methodId ↔
      x ∈ fsppilot ∧ x.2.knownOutcome = 0 ∧ x.2.fspmethodId = methodId ∧ x.2.variantId = variant := by
  simp [pilotsOf]

theorem pilotsOf_append (xs ys : List (ℕ × Pilot)) (variant methodId : ℕ) :
    pilotsOf (xs ++ ys) variant methodId = pilotsOf xs variant methodId ++ pilotsOf ys variant methodId :=
  List.filter_append xs ys

theorem pilotsOf_eq_nil {fsppilot : List (ℕ × Pilot)}
    (h : ∀ p ∈ fsppilot, p.2.knownOutcome = 0 → p.2.fspmethodId = methodId → p.2.variantId ≠ variant) :
    pilotsOf fsppilot variant methodId = [] := by
  rw [List.eq_nil_iff_forall_not_mem]
  intro p hp
  obtain ⟨hmem, houtcome, hmethod, hvariant⟩ := mem_pilotsOf.mp hp
  exact h p hmem houtcome hmethod hvariant

theorem nodup_readsOf (db : PruneDb) (variant : ℕ) : ((readsOf db.trace.rows variant).map traceKey).Nodup :=
  db.trace.unique.sublist (List.filter_sublist.map _)

theorem duration_eq_some (h : HasDurations db variant) (ht : t ∈ readsOf db.trace.rows variant) :
    duration t.2 = some (t.2.time2 - t.2.time1 + 1) :=
  if_pos (h t ht)

theorem mapM_eq_map {α β : Type} {f : α → Option β} (g : α → β) {xs : List α} (h : ∀ x ∈ xs, f x = some (g x)) :
    xs.mapM f = some (xs.map g) := by
  induction xs with
  | nil => rfl
  | cons x xs ih =>
    rw [List.mapM_cons, h x List.mem_cons_self, ih fun y hy => h y (List.mem_cons_of_mem x hy)]
    rfl

/-- **What a run knows about the population**: its elements are the reads of the variant, and the weights are
those of the runs before. -/
structure Loaded (db : PruneDb) (variant : ℕ) (drawn : List (ℕ × ℕ × ℕ)) (weighting : Bool)
    (elements : List WeightedPilot) : Prop where
  keys : (elements.map (WeightedPilot.traceKey variant)).Perm ((readsOf db.trace.rows variant).map traceKey)
  weight : ∀ p ∈ elements, p.weight = drawn.count (p.traceKey variant)
  positive : ∀ p ∈ elements, 0 < p.duration
  total : totalSize WeightedPilot.duration elements = populationSize db variant weighting

theorem loaded_of_rows {rows : List TraceEntry} {elements : List WeightedPilot} {weighting : Bool}
    (hrows : rows.Perm (readsOf db.trace.rows variant))
    (hkeys : elements.map (WeightedPilot.traceKey variant) = rows.map traceKey)
    (hsizes : elements.map WeightedPilot.duration = rows.map (sizeOfRow weighting))
    (hweight : ∀ p ∈ elements, p.weight = drawn.count (p.traceKey variant)) :
    Loaded db variant drawn weighting elements := by
  refine ⟨hkeys ▸ hrows.map traceKey, hweight, ?_, ?_⟩
  · intro p hp
    have hmem := List.mem_map_of_mem (f := WeightedPilot.duration) hp
    rw [hsizes] at hmem
    obtain ⟨t, -, ht⟩ := List.mem_map.mp hmem
    rw [← ht, sizeOfRow]
    split
    · exact Nat.succ_pos _
    · exact Nat.one_pos
  · rw [populationSize, totalSize, totalSize, hsizes]
    exact (hrows.map _).sum_eq

theorem Loaded.injective {elements : List WeightedPilot} {weighting : Bool}
    (h : Loaded db variant drawn weighting elements) {p q : WeightedPilot} (hp : p ∈ elements)
    (hq : q ∈ elements) (hkey : p.traceKey variant = q.traceKey variant) : p = q :=
  List.inj_on_of_nodup_map (h.keys.nodup_iff.mpr (nodup_readsOf db variant)) hp hq hkey

/-! ## The invariant between runs -/

/-- The trace row `k` has a group with weight `n`, which refers to a pilot of this row. -/
def Weighs (db : PruneDb) (methodId : ℕ) (k : ℕ × ℕ × ℕ) (n : ℕ) : Prop :=
  ∃ g p, db.fspgroup.find (k, methodId) = some g ∧ g.weight = some n ∧ (g.pilotId, p) ∈ db.fsppilot.rows ∧
    p.knownOutcome = 0 ∧ p.traceKey = k

/-- **The invariant between runs**: the runs since `db₀` have drawn the rows `drawn`. -/
structure Accumulated (methodId variant : ℕ) (db₀ : PruneDb) (drawn : List (ℕ × ℕ × ℕ)) (db : PruneDb) :
    Prop where
  trace : db.trace = db₀.trace
  reads : ∀ k ∈ drawn, k ∈ (readsOf db.trace.rows variant).map traceKey
  present : ∀ k ∈ drawn, Weighs db methodId k (drawn.count k)
  absent : ∀ k, k.1 = variant → k ∉ drawn → db.fspgroup.find (k, methodId) = none
  /-- The sampling pilots belong to different rows that have been drawn. -/
  unique : ((pilotsOf db.fsppilot.rows variant methodId).map fun p => p.2.traceKey).Nodup
  sampled : ∀ p ∈ pilotsOf db.fsppilot.rows variant methodId, p.2.traceKey ∈ drawn
  /-- Nothing else has changed. -/
  pilots : ∃ new, db.fsppilot.rows = db₀.fsppilot.rows ++ new ∧
    ∀ p ∈ new, p.2.fspmethodId = methodId ∧ p.2.variantId = variant
  others : ∀ k, ¬(k.2 = methodId ∧ k.1.1 = variant) → db.fspgroup.find k = db₀.fspgroup.find k

/-- The variant has not been sampled. -/
structure Clean (methodId variant : ℕ) (db : PruneDb) : Prop where
  pilots : ∀ p ∈ db.fsppilot.rows, p.2.fspmethodId = methodId → p.2.variantId ≠ variant
  groups : ∀ g ∈ db.fspgroup.rows, g.fspmethodId = methodId → g.variantId ≠ variant

theorem Clean.accumulated (h : Clean methodId variant db) : Accumulated methodId variant db [] db := by
  have hnone : pilotsOf db.fsppilot.rows variant methodId = [] := pilotsOf_eq_nil fun p hp _ => h.pilots p hp
  refine ⟨rfl, by simp, by simp, ?_, by simp [hnone], by simp [hnone], ⟨[], by simp⟩, fun k _ => rfl⟩
  intro k hk _
  rw [Table.find_eq_none_iff]
  intro g hg hkey
  exact h.groups g hg (congrArg Prod.snd hkey) ((congrArg (fun key => key.1.1) hkey).trans hk)

section Load

variable {db₀ : PruneDb}

/-- **The weights that are loaded** are those of the runs before. -/
theorem Accumulated.weightOfGroup_eq (h : Accumulated methodId variant db₀ drawn db)
    (hincremental : pruner.incremental = true ∨ drawn = []) (ht : t ∈ readsOf db.trace.rows variant) :
    pruner.weightOfGroup methodId db t = drawn.count (traceKey t) := by
  rw [weightOfGroup]
  split
  · by_cases hk : traceKey t ∈ drawn
    · obtain ⟨g, p, hfind, hweight, -⟩ := h.present _ hk
      rw [hfind, Option.bind_some, hweight, Option.getD_some]
    · rw [h.absent _ (mem_readsOf.mp ht).2.1 hk, List.count_eq_zero.mpr hk]
      rfl
  · rename_i hnot
    rw [hincremental.resolve_left hnot]
    rfl

/-- **The population without known results.** -/
theorem Accumulated.loaded_of_trace (h : Accumulated methodId variant db₀ drawn db) (hdelivers : pruner.Delivers)
    (hdurations : HasDurations db variant) (hincremental : pruner.incremental = true ∨ drawn = [])
    (habsolute : ∀ t ∈ readsOf db.trace.rows variant, t.2.instr2Absolute ≠ none) :
    ∃ loaded, pruner.loadTrace methodId variant db = some loaded ∧
      Loaded db variant drawn pruner.weighting loaded := by
  -- the rows come in any order, and every one of them has a duration and an `instr2_absolute`
  have hrows := hdelivers _ (readsOf db.trace.rows variant)
  have hload : pruner.loadTrace methodId variant db = _ :=
    mapM_eq_map
      (fun t => pruner.elementOfRow methodId db t (t.2.time2 - t.2.time1 + 1) (t.2.instr2Absolute.getD 0)) (by
      intro t ht
      have hread := hrows.subset ht
      obtain ⟨instr2Absolute, hinstr⟩ := Option.ne_none_iff_exists'.mp (habsolute t hread)
      rw [duration_eq_some hdurations hread, hinstr]
      rfl)
  have hkey : ∀ t ∈ pruner.order _ (readsOf db.trace.rows variant),
      (variant, t.2.dataAddress, t.2.instr2) = traceKey t := by
    intro t ht
    rw [traceKey, (mem_readsOf.mp (hrows.subset ht)).2.1]
  refine ⟨_, hload, loaded_of_rows hrows ?_ ?_ ?_⟩
  · rw [List.map_map]
    exact List.map_congr_left hkey
  · rw [List.map_map]
    rfl
  · intro p hp
    obtain ⟨t, ht, rfl⟩ := List.mem_map.mp hp
    have hcount := h.weightOfGroup_eq hincremental (hrows.subset ht)
    rw [← hkey t ht] at hcount
    exact hcount

theorem Accumulated.basicPruned (h : Accumulated methodId variant db₀ drawn db) (hne : methodId ≠ basicId)
    (hbasic : BasicPruned db₀ basicId variant) : BasicPruned db basicId variant := by
  obtain ⟨new, hrows, hnew⟩ := h.pilots
  have hnone : pilotsOf new variant basicId = [] :=
    pilotsOf_eq_nil fun p hp _ hmethod => absurd ((hnew p hp).1.symm.trans hmethod) hne
  have hsame : pilotsOf db.fsppilot.rows variant basicId = pilotsOf db₀.fsppilot.rows variant basicId := by
    rw [hrows, pilotsOf_append, hnone, List.append_nil]
  refine ⟨hsame ▸ hbasic.unique, ?_⟩
  rw [hsame, h.trace]
  exact hbasic.keys

/-- The join finds the row of every basic pilot. -/
theorem BasicPruned.keys_basicPilots (h : BasicPruned db basicId variant) :
    ((basicPilots basicId variant db).map Prod.snd).map traceKey =
      (pilotsOf db.fsppilot.rows variant basicId).map fun p => p.2.traceKey := by
  rw [List.map_map, basicPilots, List.map_flatMap, ← List.flatMap_pure_eq_map]
  refine List.flatMap_congr fun p hp => ?_
  obtain ⟨t, ht, hkey⟩ := List.mem_map.mp ((h.keys _).mp (List.mem_map_of_mem hp))
  have hone := db.trace.filter_key (mem_readsOf.mp ht).1
  rw [hkey] at hone
  rw [hone]
  exact congrArg (fun k => [k]) hkey

theorem mem_basicPilots {x : (ℕ × Pilot) × TraceEntry} (hx : x ∈ basicPilots basicId variant db) :
    x.1 ∈ pilotsOf db.fsppilot.rows variant basicId ∧ x.2 ∈ db.trace.rows ∧ traceKey x.2 = x.1.2.traceKey := by
  obtain ⟨p, hp, hx⟩ := List.mem_flatMap.mp hx
  obtain ⟨t, ht, rfl⟩ := List.mem_map.mp hx
  obtain ⟨hmem, hkey⟩ := List.mem_filter.mp ht
  exact ⟨hp, hmem, of_decide_eq_true hkey⟩

/-- **The join of the basic pilots is the population.** -/
theorem BasicPruned.perm_basicPilots (h : BasicPruned db basicId variant) :
    ((basicPilots basicId variant db).map Prod.snd).Perm (readsOf db.trace.rows variant) := by
  have hkeys := h.keys_basicPilots
  have hnodup := h.unique
  rw [← hkeys] at hnodup
  have hrow : ∀ t ∈ (basicPilots basicId variant db).map Prod.snd, t ∈ db.trace.rows := by
    intro t ht
    obtain ⟨x, hx, rfl⟩ := List.mem_map.mp ht
    exact (mem_basicPilots hx).2.1
  -- both are lists of different rows, so that it suffices to compare their keys
  rw [List.perm_ext_iff_of_nodup hnodup.of_map (nodup_readsOf db variant).of_map]
  intro t
  constructor
  · intro ht
    have hk := List.mem_map_of_mem (f := traceKey) ht
    rw [hkeys, h.keys] at hk
    obtain ⟨t', ht', hkey⟩ := List.mem_map.mp hk
    rwa [← db.trace.eq_of_key (mem_readsOf.mp ht').1 (hrow t ht) hkey]
  · intro ht
    have hk := (h.keys _).mpr (List.mem_map_of_mem (f := traceKey) ht)
    rw [← hkeys] at hk
    obtain ⟨t', ht', hkey⟩ := List.mem_map.mp hk
    rwa [← db.trace.eq_of_key (hrow t' ht') (mem_readsOf.mp ht).1 hkey]

/-- **The population with known results.** Its elements have the `id`s of the basic pilots. -/
theorem Accumulated.loaded_of_pilots (h : Accumulated methodId variant db₀ drawn db)
    (hdelivers : pruner.Delivers)
    (hdurations : HasDurations db variant) (hincremental : pruner.incremental = true ∨ drawn = [])
    (hbasic : BasicPruned db basicId variant) :
    ∃ loaded, pruner.loadPilots methodId basicId variant db = some loaded ∧
      Loaded db variant drawn pruner.weighting loaded ∧
      ∀ p ∈ loaded, ∃ q ∈ pilotsOf db.fsppilot.rows variant basicId, q.1 = p.id ∧
        q.2.traceKey = p.traceKey variant := by
  -- the join is the population in another order
  have horder := hdelivers _ (basicPilots basicId variant db)
  have hrows := (horder.map Prod.snd).trans hbasic.perm_basicPilots
  have hread : ∀ x ∈ pruner.order _ (basicPilots basicId variant db), x.2 ∈ readsOf db.trace.rows variant :=
    fun x hx => hrows.subset (List.mem_map_of_mem hx)
  have hload : pruner.loadPilots methodId basicId variant db = _ :=
    mapM_eq_map (fun x => pruner.elementOfPilot methodId db x.1 x.2 (x.2.2.time2 - x.2.2.time1 + 1)) (by
      intro x hx
      rw [duration_eq_some hdurations (hread x hx)]
      rfl)
  have hpilot : ∀ x ∈ pruner.order _ (basicPilots basicId variant db),
      x.1.2.traceKey = (variant, x.1.2.dataAddress, x.1.2.instr2) := by
    intro x hx
    rw [Pilot.traceKey, (mem_pilotsOf.mp (mem_basicPilots (horder.subset hx)).1).2.2.2]
  have hkey : ∀ x ∈ pruner.order _ (basicPilots basicId variant db),
      (variant, x.1.2.dataAddress, x.1.2.instr2) = traceKey x.2 := by
    intro x hx
    rw [← hpilot x hx, (mem_basicPilots (horder.subset hx)).2.2]
  refine ⟨_, hload, loaded_of_rows hrows ?_ ?_ ?_, ?_⟩
  · rw [List.map_map, List.map_map]
    exact List.map_congr_left hkey
  · rw [List.map_map, List.map_map]
    rfl
  · intro p hp
    obtain ⟨x, hx, rfl⟩ := List.mem_map.mp hp
    have hcount := h.weightOfGroup_eq hincremental (hread x hx)
    rw [← hkey x hx] at hcount
    exact hcount
  · intro p hp
    obtain ⟨x, hx, rfl⟩ := List.mem_map.mp hp
    exact ⟨x.1, (mem_basicPilots (horder.subset hx)).1, rfl, hpilot x hx⟩

end Load

/-! ## Writing back -/

theorem count_map_of_inj {α β : Type} [BEq α] [LawfulBEq α] [BEq β] [LawfulBEq β] {f : α → β} {a : α}
    {xs : List α} (h : ∀ x ∈ xs, f x = f a → x = a) : (xs.map f).count (f a) = xs.count a := by
  rw [List.count, List.count, List.countP_map]
  refine List.countP_congr fun x hx => ?_
  simp only [Function.comp_apply, beq_iff_eq]
  exact ⟨h x hx, congrArg f⟩

section WriteBack

variable {db₀ : PruneDb} {weighting : Bool} {elements : List WeightedPilot} {s : Sampled}

/-- **The weight of an element** is the number of times its row was drawn in all runs. -/
theorem Loaded.weightOf_eq (h : Loaded db variant drawn weighting elements)
    (hdrawn : ∀ p ∈ s.drawn, p ∈ elements)
    (hbound : drawn.length + s.drawn.length < 2 ^ 32) (hp : p ∈ elements) :
    weightOf s.drawn p = (drawn ++ s.drawn.map (WeightedPilot.traceKey variant)).count (p.traceKey variant) := by
  have hcount : (s.drawn.map (WeightedPilot.traceKey variant)).count (p.traceKey variant) = s.drawn.count p :=
    count_map_of_inj fun q hq hkey => h.injective (hdrawn q hq) hp hkey
  have hle := List.count_le_length (a := p.traceKey variant) (l := drawn)
  have hle' := List.count_le_length (a := p) (l := s.drawn)
  rw [weightOf, h.weight p hp, List.count_append, hcount, Nat.mod_eq_of_lt (by omega)]

theorem Loaded.exists_element (h : Loaded db variant drawn weighting elements) {k : ℕ × ℕ × ℕ}
    (hk : k ∈ (readsOf db.trace.rows variant).map traceKey) : ∃ p ∈ elements, p.traceKey variant = k :=
  List.mem_map.mp (h.keys.symm.subset hk)

/-- All rows that have been drawn behind the run are rows of the population. -/
theorem Accumulated.reads_append (h : Accumulated methodId variant db₀ drawn db)
    (hloaded : Loaded db variant drawn weighting elements) (hdrawn : ∀ p ∈ s.drawn, p ∈ elements) :
    ∀ k ∈ drawn ++ s.drawn.map (WeightedPilot.traceKey variant),
      k ∈ (readsOf db.trace.rows variant).map traceKey := by
  intro k hk
  obtain hk | hk := List.mem_append.mp hk
  · exact h.reads k hk
  · obtain ⟨p, hp, rfl⟩ := List.mem_map.mp hk
    exact hloaded.keys.subset (List.mem_map_of_mem (hdrawn p hp))

/-- **`INSERT` and `REPLACE` do the same**: the rows that are written win. -/
theorem Accumulated.writeGroups_eq (pruner : SamplingPruner) (h : Accumulated methodId variant db₀ drawn db)
    (hincremental : pruner.incremental = true ∨ drawn = []) {rows : List Group}
    (hrows : ∀ g ∈ rows, g.fspmethodId = methodId ∧ g.variantId = variant) (hkeys : (rows.map Group.key).Nodup) :
    ∃ fspgroup, pruner.writeGroups db.fspgroup rows = some fspgroup ∧
      ∀ k, fspgroup.find k = (rows.find? fun g => g.key = k).or (db.fspgroup.find k) := by
  rw [writeGroups]
  split
  · exact ⟨_, rfl, Table.find_replace hkeys db.fspgroup⟩
  · rename_i hnot
    refine Table.find_insert hkeys fun g hg g' hg' hkey => ?_
    obtain ⟨hmethod, hvariant⟩ := hrows g' hg'
    have hfind := Table.mem_rows_iff.mp hg
    have habsent := h.absent g'.key.1 hvariant (by rw [hincremental.resolve_left hnot]; simp)
    rw [← hmethod] at habsent
    change db.fspgroup.find g'.key = none at habsent
    rw [hkey, habsent] at hfind
    cases hfind

theorem nodup_groups {α : Type} (keyOf : α → ℕ × ℕ × ℕ) {groupOf : α → Group} {xs : List α}
    (hkey : ∀ x ∈ xs, (groupOf x).key = (keyOf x, methodId)) (hnodup : (xs.map keyOf).Nodup) :
    ((xs.map groupOf).map Group.key).Nodup := by
  have hpairs := hnodup.map (f := fun k => (k, methodId)) fun _ _ hk => congrArg Prod.fst hk
  have hsame : xs.map (Group.key ∘ groupOf) = xs.map ((fun k => (k, methodId)) ∘ keyOf) :=
    List.map_congr_left hkey
  rw [List.map_map] at hpairs ⊢
  rwa [hsame]

theorem find?_eq_none_of_others {rows : List Group}
    (hrows : ∀ g ∈ rows, g.fspmethodId = methodId ∧ g.variantId = variant) {k : (ℕ × ℕ × ℕ) × ℕ}
    (hk : ¬(k.2 = methodId ∧ k.1.1 = variant)) : (rows.find? fun g => g.key = k) = none := by
  rw [List.find?_eq_none]
  intro g hg hkey
  obtain rfl : g.key = k := of_decide_eq_true hkey
  exact hk (hrows g hg)

/-- **A run with known results keeps the invariant.** Every group it writes has its final weight. -/
theorem Accumulated.writeBack_known (h : Accumulated methodId variant db₀ drawn db)
    (hloaded : Loaded db variant drawn weighting elements)
    (hincremental : pruner.incremental = true ∨ drawn = []) (hknown : pruner.useKnownResults = true)
    (hpilots : ∀ p ∈ elements, ∃ q ∈ pilotsOf db.fsppilot.rows variant basicId,
      q.1 = p.id ∧ q.2.traceKey = p.traceKey variant)
    (hdrawn : ∀ p ∈ s.drawn, p ∈ elements) (hbound : drawn.length + s.drawn.length < 2 ^ 32) :
    ∃ db', pruner.writeBack methodId variant db s elements = some db' ∧
      Accumulated methodId variant db₀ (drawn ++ s.drawn.map (WeightedPilot.traceKey variant)) db' := by
  have hreads := h.reads_append hloaded hdrawn
  have hweight := fun p hp => hloaded.weightOf_eq (p := p) hdrawn hbound hp
  set drawn' := drawn ++ s.drawn.map (WeightedPilot.traceKey variant) with hdrawn'
  have hrows : ∀ g ∈ groupsOfKnown methodId variant s.drawn elements,
      g.fspmethodId = methodId ∧ g.variantId = variant := by
    intro g hg
    obtain ⟨p, -, rfl⟩ := List.mem_map.mp hg
    exact ⟨rfl, rfl⟩
  have hkeys : ((groupsOfKnown methodId variant s.drawn elements).map Group.key).Nodup := by
    refine nodup_groups (WeightedPilot.traceKey variant) (fun p _ => rfl) ?_
    exact (hloaded.keys.nodup_iff.mpr (nodup_readsOf db variant)).sublist (List.filter_sublist.map _)
  obtain ⟨fspgroup, hwrite, hfind⟩ := h.writeGroups_eq pruner hincremental hrows hkeys
  refine ⟨{ db with fspgroup }, ?_, h.trace, hreads, ?_, ?_, h.unique, ?_, h.pilots, ?_⟩
  · rw [writeBack, if_pos hknown, hwrite]
    rfl
  · -- a row that was drawn has a positive weight, so that its group is written, with its basic pilot
    intro k hk
    obtain ⟨p, hp, rfl⟩ := hloaded.exists_element (hreads k hk)
    obtain ⟨q, hq, hid, hkey⟩ := hpilots p hp
    have hpos : weightOf s.drawn p ≠ 0 := by
      rw [hweight p hp]
      exact (List.count_pos_iff.mpr hk).ne'
    have hrow : _ ∈ groupsOfKnown methodId variant s.drawn elements :=
      List.mem_map_of_mem (List.mem_filter.mpr ⟨hp, by simpa using hpos⟩)
    have hfound := (Table.find_eq_some_iff (t := ⟨_, hkeys⟩)).mpr ⟨hrow, rfl⟩
    refine ⟨_, q.2, (hfind _).trans (congrArg (Option.or · _) hfound), ?_, ?_, ?_, hkey⟩
    · rw [← hweight p hp]
    · rw [← hid]
      exact (mem_pilotsOf.mp hq).1
    · exact (mem_pilotsOf.mp hq).2.1
  · intro k hvariant hk
    rw [hfind, h.absent k hvariant fun hold =>
      hk (List.mem_append_left _ hold), Option.or_none, List.find?_eq_none]
    intro g hg hkey
    obtain ⟨p, hp, rfl⟩ := List.mem_map.mp hg
    obtain ⟨hp, hpos⟩ := List.mem_filter.mp hp
    have hk' : p.traceKey variant = k := congrArg Prod.fst (of_decide_eq_true hkey)
    rw [hweight p hp, hk', List.count_eq_zero.mpr hk] at hpos
    simp at hpos
  · exact fun p hp => List.mem_append_left _ (h.sampled p hp)
  · intro k hk
    rw [hfind, find?_eq_none_of_others hrows hk, Option.none_or]
    exact h.others k hk

/-- The sampling pilots behind a run without known results. -/
theorem Accumulated.pilotsOf_insert {ps : List WeightedPilot} (db : PruneDb)
    (hvalues : s.values = ps.map (pilotOf methodId variant)) :
    pilotsOf (db.fsppilot.insert s.values).rows variant methodId =
      pilotsOf db.fsppilot.rows variant methodId ++
        (number db.fsppilot.next ps).map fun x => (x.1, pilotOf methodId variant x.2) := by
  rw [AutoTable.rows_insert, pilotsOf_append, hvalues, number_map]
  congr 1
  rw [pilotsOf, List.filter_eq_self]
  intro p hp
  obtain ⟨x, -, rfl⟩ := List.mem_map.mp hp
  exact decide_eq_true ⟨rfl, rfl, rfl⟩

/-- The rows of the sampling pilots behind a run without known results: a new pilot belongs to a row that had no
weight, so that no row gets a second one. -/
theorem Accumulated.keys_pilotsOf_insert (h : Accumulated methodId variant db₀ drawn db)
    (hloaded : Loaded db variant drawn weighting elements) (hdrawn : ∀ p ∈ s.drawn, p ∈ elements)
    (hnoted : Noted methodId variant s) :
    ((pilotsOf (db.fsppilot.insert s.values).rows variant methodId).map fun p => p.2.traceKey).Nodup ∧
      (∀ p ∈ pilotsOf (db.fsppilot.insert s.values).rows variant methodId,
        p.2.traceKey ∈ drawn ++ s.drawn.map (WeightedPilot.traceKey variant)) ∧
      ∀ p ∈ s.drawn, p.traceKey variant ∉ drawn →
        ∃ q ∈ pilotsOf (db.fsppilot.insert s.values).rows variant methodId,
          q.2.traceKey = p.traceKey variant := by
  obtain ⟨ps, hvalues, hnodup, hmem⟩ := hnoted
  have hkeys : ((number db.fsppilot.next ps).map fun x => (x.1, pilotOf methodId variant x.2)).map
      (fun p => p.2.traceKey) = ps.map (WeightedPilot.traceKey variant) := by
    have hsnd := congrArg (List.map (WeightedPilot.traceKey variant)) (map_snd_number db.fsppilot.next ps)
    rw [List.map_map] at hsnd ⊢
    exact hsnd
  rw [pilotsOf_insert db hvalues]
  refine ⟨?_, ?_, ?_⟩
  · rw [List.map_append, hkeys, List.nodup_append]
    refine ⟨h.unique, ?_, ?_⟩
    · refine hnodup.map_on fun p hp q hq hkey => ?_
      exact hloaded.injective (hdrawn p ((hmem p).mp hp).1) (hdrawn q ((hmem q).mp hq).1) hkey
    · -- the row of an old pilot has been drawn before, the row of a new one has not
      rintro k hk k' hk' rfl
      obtain ⟨x, hx, rfl⟩ := List.mem_map.mp hk
      obtain ⟨p, hp, hkey⟩ := List.mem_map.mp hk'
      obtain ⟨hp, hzero⟩ := (hmem p).mp hp
      rw [hloaded.weight p (hdrawn p hp), hkey, List.count_eq_zero] at hzero
      exact hzero (h.sampled x hx)
  · intro p hp
    obtain hp | hp := List.mem_append.mp hp
    · exact List.mem_append_left _ (h.sampled p hp)
    · obtain ⟨x, hx, rfl⟩ := List.mem_map.mp hp
      exact List.mem_append_right _ (List.mem_map_of_mem ((hmem x.2).mp (snd_mem_of_number hx)).1)
  · intro p hp hk
    have hzero : p.weight = 0 := by rw [hloaded.weight p (hdrawn p hp), List.count_eq_zero.mpr hk]
    obtain ⟨id, hid⟩ := exists_number ((hmem p).mpr ⟨hp, hzero⟩) db.fsppilot.next
    exact ⟨_, List.mem_append_right _ (List.mem_map_of_mem hid), rfl⟩

/-- The rows of the elements whose group is updated. -/
theorem find_updateWeights (hloaded : Loaded db variant drawn weighting elements) (fspgroup : Table Group.key)
    (k : (ℕ × ℕ × ℕ) × ℕ) :
    (updateWeights methodId variant s.drawn elements fspgroup).find k =
      ((elements.filter fun p => 1 < weightOf s.drawn p).find? fun p => (p.traceKey variant, methodId) = k).elim
        (fspgroup.find k) fun p => (fspgroup.find k).map fun g =>
          { g with weight := some (weightOf s.drawn p) } := by
  have hnodup := hloaded.keys.nodup_iff.mpr (nodup_readsOf db variant)
  have hsub := hnodup.sublist ((List.filter_sublist (p := fun p => decide (1 < weightOf s.drawn p))).map _)
  have hpairs := hsub.map (f := fun k => (k, methodId)) fun _ _ hk => congrArg Prod.fst hk
  rw [List.map_map] at hpairs
  exact Table.find_foldl_update
    (f := fun p g => { g with weight := some (weightOf s.drawn p) }) hpairs fspgroup k

theorem find_updateWeights_of_none (hloaded : Loaded db variant drawn weighting elements)
    {fspgroup : Table Group.key} {k : (ℕ × ℕ × ℕ) × ℕ} (hnone : fspgroup.find k = none) :
    (updateWeights methodId variant s.drawn elements fspgroup).find k = none := by
  rw [find_updateWeights hloaded, hnone]
  generalize List.find? _ _ = found
  cases found with
  | none => rfl
  | some e => rfl

theorem find_updateWeights_of_others (hloaded : Loaded db variant drawn weighting elements)
    (fspgroup : Table Group.key) {k : (ℕ × ℕ × ℕ) × ℕ} (hk : ¬(k.2 = methodId ∧ k.1.1 = variant)) :
    (updateWeights methodId variant s.drawn elements fspgroup).find k = fspgroup.find k := by
  have hnone : ((elements.filter fun p => 1 < weightOf s.drawn p).find?
      fun p => (p.traceKey variant, methodId) = k) = none := by
    rw [List.find?_eq_none]
    intro e _ he
    obtain rfl : (e.traceKey variant, methodId) = k := of_decide_eq_true he
    exact hk ⟨rfl, rfl⟩
  rw [find_updateWeights hloaded, hnone]
  rfl

/-- **Greater weights are repaired**: a group that has weight 1 if its row was drawn once gets the number of
draws of its row. -/
theorem find_updateWeights_of_drawn (hloaded : Loaded db variant drawn weighting elements)
    (hdrawn : ∀ p ∈ s.drawn, p ∈ elements) (hbound : drawn.length + s.drawn.length < 2 ^ 32)
    {fspgroup : Table Group.key} {k : ℕ × ℕ × ℕ} {g : Group}
    (hread : k ∈ (readsOf db.trace.rows variant).map traceKey)
    (hk : k ∈ drawn ++ s.drawn.map (WeightedPilot.traceKey variant)) (hg : fspgroup.find (k, methodId) = some g)
    (hone : (drawn ++ s.drawn.map (WeightedPilot.traceKey variant)).count k = 1 → g.weight = some 1) :
    (updateWeights methodId variant s.drawn elements fspgroup).find (k, methodId) =
      some { g with weight := some ((drawn ++ s.drawn.map (WeightedPilot.traceKey variant)).count k) } := by
  have hweight := fun p hp => hloaded.weightOf_eq (p := p) hdrawn hbound hp
  have hpos := List.count_pos_iff.mpr hk
  rw [find_updateWeights hloaded]
  cases hupdate : (elements.filter fun p => 1 < weightOf s.drawn p).find?
      fun p => (p.traceKey variant, methodId) = (k, methodId) with
  | some e =>
    have he := (List.mem_filter.mp (List.mem_of_find?_eq_some hupdate)).1
    have hfound := List.find?_some hupdate
    have hek : e.traceKey variant = k := congrArg Prod.fst (of_decide_eq_true hfound)
    rw [Option.elim_some, hg, Option.map_some, hweight e he, hek]
  | none =>
    -- the weight is not greater than 1
    obtain ⟨q, hq, hqk⟩ := hloaded.exists_element hread
    have hle : ¬1 < weightOf s.drawn q := by
      intro hlt
      rw [List.find?_eq_none] at hupdate
      exact hupdate q (List.mem_filter.mpr ⟨hq, decide_eq_true hlt⟩) (decide_eq_true (by rw [hqk]))
    rw [hweight q hq, hqk] at hle
    have hcount : (drawn ++ s.drawn.map (WeightedPilot.traceKey variant)).count k = 1 := by omega
    rw [Option.elim_none, hg, hcount, ← hone hcount]

/-- **The groups before the greater weights are repaired**: new and old sampling pilots have groups with weight
1, and the groups of other pilots are still there. -/
theorem Accumulated.group_of_drawn (h : Accumulated methodId variant db₀ drawn db) {fspgroup : Table Group.key}
    {fsppilot : AutoTable Pilot} (hold : ∀ p ∈ db.fsppilot.rows, p ∈ fsppilot.rows)
    (hnew : ∀ p ∈ s.drawn, p.traceKey variant ∉ drawn →
      ∃ q ∈ pilotsOf fsppilot.rows variant methodId, q.2.traceKey = p.traceKey variant)
    (hkeys : ((groupsOfPilots methodId variant fsppilot.rows).map Group.key).Nodup)
    (hfind : ∀ k, fspgroup.find k =
      ((groupsOfPilots methodId variant fsppilot.rows).find? fun g => g.key = k).or (db.fspgroup.find k))
    {k : ℕ × ℕ × ℕ} (hk : k ∈ drawn ++ s.drawn.map (WeightedPilot.traceKey variant)) :
    ∃ g p, fspgroup.find (k, methodId) = some g ∧
      ((drawn ++ s.drawn.map (WeightedPilot.traceKey variant)).count k = 1 → g.weight = some 1) ∧
      (g.pilotId, p) ∈ fsppilot.rows ∧ p.knownOutcome = 0 ∧ p.traceKey = k := by
  by_cases hpilot : ∃ q ∈ pilotsOf fsppilot.rows variant methodId, q.2.traceKey = k
  · obtain ⟨q, hq, rfl⟩ := hpilot
    have hrow : _ ∈ groupsOfPilots methodId variant fsppilot.rows := List.mem_map_of_mem hq
    have hfound := (Table.find_eq_some_iff (t := ⟨_, hkeys⟩)).mpr ⟨hrow, rfl⟩
    obtain ⟨hmem, houtcome, -⟩ := mem_pilotsOf.mp hq
    exact ⟨_, q.2, (hfind _).trans (congrArg (Option.or · _) hfound), fun _ => rfl, hmem, houtcome, rfl⟩
  · -- only a row that has been drawn before can be without a sampling pilot
    have hbefore : k ∈ drawn := by
      by_contra hnot
      obtain ⟨p, hp, rfl⟩ := List.mem_map.mp ((List.mem_append.mp hk).resolve_left hnot)
      exact hpilot (hnew p hp hnot)
    have hnone : ((groupsOfPilots methodId variant fsppilot.rows).find? fun g => g.key = (k, methodId)) =
        none := by
      rw [List.find?_eq_none]
      intro g hg hkey
      obtain ⟨q, hq, rfl⟩ := List.mem_map.mp hg
      exact hpilot ⟨q, hq, congrArg Prod.fst (of_decide_eq_true hkey)⟩
    obtain ⟨g, p, hg, hcount, hmem, houtcome, hkey⟩ := h.present k hbefore
    refine ⟨g, p, by rw [hfind, hnone, Option.none_or, hg], fun hone => ?_, hold _ hmem, houtcome, hkey⟩
    have hpos := List.count_pos_iff.mpr hbefore
    rw [List.count_append] at hone
    rw [hcount, show drawn.count k = 1 by omega]

theorem Accumulated.pilots_insert (h : Accumulated methodId variant db₀ drawn db)
    (hnoted : Noted methodId variant s) :
    ∃ new, (db.fsppilot.insert s.values).rows = db₀.fsppilot.rows ++ new ∧
      ∀ p ∈ new, p.2.fspmethodId = methodId ∧ p.2.variantId = variant := by
  obtain ⟨new, hold, hnew⟩ := h.pilots
  obtain ⟨ps, hvalues, -, -⟩ := hnoted
  refine ⟨new ++ number db.fsppilot.next s.values, ?_, fun p hp => ?_⟩
  · rw [← List.append_assoc, ← hold]
    rfl
  · obtain hp | hp := List.mem_append.mp hp
    · exact hnew p hp
    · have hvalue := snd_mem_of_number hp
      rw [hvalues] at hvalue
      obtain ⟨e, -, he⟩ := List.mem_map.mp hvalue
      rw [← he]
      exact ⟨rfl, rfl⟩

/-- **A run without known results keeps the invariant.** It gives every group of a sampling pilot weight 1, and
then repairs the greater weights; the groups of other pilots keep their weight until then. -/
theorem Accumulated.writeBack_sampled (h : Accumulated methodId variant db₀ drawn db)
    (hloaded : Loaded db variant drawn weighting elements)
    (hincremental : pruner.incremental = true ∨ drawn = [])
    (hknown : pruner.useKnownResults = false) (hnoted : Noted methodId variant s)
    (hdrawn : ∀ p ∈ s.drawn, p ∈ elements) (hbound : drawn.length + s.drawn.length < 2 ^ 32) :
    ∃ db', pruner.writeBack methodId variant db s elements = some db' ∧
      Accumulated methodId variant db₀ (drawn ++ s.drawn.map (WeightedPilot.traceKey variant)) db' := by
  have hreads := h.reads_append hloaded hdrawn
  obtain ⟨hunique, hsampled, hnewPilot⟩ := h.keys_pilotsOf_insert hloaded hdrawn hnoted
  have hpilots := h.pilots_insert hnoted
  have hrows : ∀ g ∈ groupsOfPilots methodId variant (db.fsppilot.insert s.values).rows,
      g.fspmethodId = methodId ∧ g.variantId = variant := by
    intro g hg
    obtain ⟨p, hp, rfl⟩ := List.mem_map.mp hg
    exact ⟨rfl, (mem_pilotsOf.mp hp).2.2.2⟩
  have hkeys : ((groupsOfPilots methodId variant (db.fsppilot.insert s.values).rows).map Group.key).Nodup :=
    nodup_groups (fun p => p.2.traceKey) (fun p _ => rfl) hunique
  obtain ⟨fspgroup, hwrite, hfind⟩ := h.writeGroups_eq pruner hincremental hrows hkeys
  refine ⟨⟨db.trace, db.fsppilot.insert s.values, updateWeights methodId variant s.drawn elements fspgroup⟩,
    ?_, h.trace, hreads, ?_, ?_, hunique, hsampled, hpilots, ?_⟩
  · rw [writeBack, if_neg (by simp [hknown])]
    exact congrArg (Option.map _) hwrite
  · -- first all groups of sampling pilots are written with weight 1, then the greater weights are repaired
    intro k hk
    obtain ⟨g, p, hg, hone, hp⟩ :=
      h.group_of_drawn (fun p hp => List.mem_append_left _ hp) hnewPilot hkeys hfind hk
    exact ⟨_, p, find_updateWeights_of_drawn hloaded hdrawn hbound (hreads k hk) hk hg hone, rfl, hp⟩
  · intro k hvariant hk
    refine find_updateWeights_of_none hloaded ?_
    rw [hfind, h.absent k hvariant fun hold =>
      hk (List.mem_append_left _ hold), Option.or_none, List.find?_eq_none]
    intro g hg hkey
    obtain ⟨q, hq, rfl⟩ := List.mem_map.mp hg
    have hqk : q.2.traceKey = k := congrArg Prod.fst (of_decide_eq_true hkey)
    exact hk (hqk ▸ hsampled q hq)
  · intro k hk
    rw [find_updateWeights_of_others hloaded fspgroup hk, hfind, find?_eq_none_of_others hrows hk,
      Option.none_or]
    exact h.others k hk

end WriteBack

/-! ## All runs -/

/-- **A run that does not fail**: the random source goes on for long enough, the size of the population has at
most 63 bits, every read of a run without known results has an `instr2_absolute`, and a run with known results
comes after a basic pruning. -/
structure Regular (db : PruneDb) (basicId variant : ℕ) (run : SamplingPruner) : Prop where
  delivers : run.Delivers
  supply : run.samplesize ≤ (accepted (populationSize db variant run.weighting - 1) run.urandom).length
  small : populationSize db variant run.weighting ≤ 2 ^ 63
  absolute : run.useKnownResults = false → ∀ t ∈ readsOf db.trace.rows variant, t.2.instr2Absolute ≠ none
  basic : run.useKnownResults = true → BasicPruned db basicId variant

variable {db₀ : PruneDb} {run : SamplingPruner} {runs : List SamplingPruner}

theorem populationSize_pos (hreads : readsOf db.trace.rows variant ≠ []) (weighting : Bool) :
    0 < populationSize db variant weighting := by
  obtain ⟨t, ht⟩ := List.exists_mem_of_ne_nil _ hreads
  refine Nat.lt_of_lt_of_le ?_ (le_totalSize ht)
  rw [sizeOfRow]
  split
  · exact Nat.succ_pos _
  · exact Nat.one_pos

theorem Loaded.sampleAll_eq (methodId : ℕ) {elements : List WeightedPilot}
    (hloaded : Loaded db variant drawn run.weighting elements)
    (hreads : readsOf db.trace.rows variant ≠ []) (hsmall : populationSize db variant run.weighting ≤ 2 ^ 63)
    (hsupply : run.samplesize ≤ (accepted (populationSize db variant run.weighting - 1) run.urandom).length)
    (hbound : drawn.length + run.samplesize < 2 ^ 32) :
    ∃ s, run.sampleAll methodId variant (population elements)
    { urandom := run.urandom } run.samplesize = some s ∧
      s.drawn.length = run.samplesize ∧ (∀ p ∈ s.drawn, p ∈ elements) ∧
      (run.useKnownResults = false → Noted methodId variant s) ∧
      (population elements).root.entries (population elements).depth = elements := by
  have htotal := hloaded.total
  have hrep := represents_population (by omega) hloaded.positive
  -- the size of the population is small enough for the tree and for the random numbers
  have hdrawable : Drawable (population elements) elements := by
    refine ⟨hrep, ?_, ?_⟩
    · rw [htotal]
      exact populationSize_pos hreads _
    · rwa [htotal]
  have hempty : Noted methodId variant { urandom := run.urandom } := ⟨[], rfl, List.nodup_nil, by simp⟩
  obtain ⟨s, new, hall, hdrawn, hlen, hmem, hnoted⟩ :=
    SamplingPruner.sampleAll_eq run (n := run.samplesize) hdrawable (fun _ => hempty) (by
      intro p hp
      have hle := List.count_le_length (a := p.traceKey variant) (l := drawn)
      rw [hloaded.weight p hp]
      exact Nat.lt_of_le_of_lt (Nat.add_le_add_right hle _) hbound) (by rwa [limitOf, htotal])
  rw [List.nil_append] at hdrawn
  exact ⟨s, hall, by rw [hdrawn, hlen], by rwa [hdrawn], hnoted, hrep.2⟩

/-- **A run keeps the invariant.** -/
theorem Accumulated.samplingPrune_eq (h : Accumulated methodId variant db₀ drawn db)
    (hrun : Regular db₀ basicId variant run) (hincremental : run.incremental = true ∨ drawn = [])
    (hne : methodId ≠ basicId) (hdurations : HasDurations db₀ variant)
    (hreads : readsOf db₀.trace.rows variant ≠ []) (hbound : drawn.length + run.samplesize < 2 ^ 32) :
    ∃ db' now, run.samplingPrune methodId basicId variant db = some (db', now) ∧ now.length = run.samplesize ∧
      Accumulated methodId variant db₀ (drawn ++ now) db' := by
  have htrace := h.trace
  have hsize : populationSize db₀ variant run.weighting = populationSize db variant run.weighting := by
    rw [populationSize, ← htrace, populationSize]
  obtain ⟨hdelivers, hsupply, hsmall, habsolute, hbasic⟩ := hrun
  rw [hsize] at hsupply hsmall
  rw [← htrace] at hreads habsolute
  have hdurations' : HasDurations db variant := by rwa [HasDurations, htrace]
  -- load, draw and write back, each with its own lemma
  cases hknown : run.useKnownResults with
  | false =>
    obtain ⟨elements, hload, hloaded⟩ := h.loaded_of_trace hdelivers hdurations' hincremental (habsolute hknown)
    obtain ⟨s, hall, hlen, hmem, hnoted, hentries⟩ := hloaded.sampleAll_eq methodId hreads hsmall hsupply hbound
    obtain ⟨db', hwrite, hafter⟩ :=
      h.writeBack_sampled hloaded hincremental hknown (hnoted hknown) hmem (by rw [hlen]; exact hbound)
    refine ⟨db', s.drawn.map (WeightedPilot.traceKey variant), ?_, by rw [List.length_map, hlen], hafter⟩
    rw [samplingPrune, load, if_neg (by simp [hknown]), hload, Option.bind_some]
    dsimp only
    rw [hall, Option.bind_some, hentries, hwrite]
    rfl
  | true =>
    obtain ⟨elements, hload, hloaded, hpilots⟩ := h.loaded_of_pilots hdelivers hdurations' hincremental
      (h.basicPruned hne (hbasic hknown))
    obtain ⟨s, hall, hlen, hmem, -, hentries⟩ := hloaded.sampleAll_eq methodId hreads hsmall hsupply hbound
    obtain ⟨db', hwrite, hafter⟩ :=
      h.writeBack_known hloaded hincremental hknown hpilots hmem (by rw [hlen]; exact hbound)
    refine ⟨db', s.drawn.map (WeightedPilot.traceKey variant), ?_, by rw [List.length_map, hlen], hafter⟩
    rw [samplingPrune, load, if_pos hknown, hload, Option.bind_some]
    dsimp only
    rw [hall, Option.bind_some, hentries, hwrite]
    rfl

/-- Runs one after the other keep the invariant. -/
theorem Accumulated.samplingRuns_eq (h : Accumulated methodId variant db₀ drawn db) (hne : methodId ≠ basicId)
    (hdurations : HasDurations db₀ variant) (hreads : readsOf db₀.trace.rows variant ≠ [])
    (hruns : ∀ run ∈ runs, Regular db₀ basicId variant run)
    (hincremental : ∀ run ∈ runs, run.incremental = true)
    (hbound : drawn.length + (runs.map samplesize).sum < 2 ^ 32) :
    ∃ db' now, samplingRuns methodId basicId variant runs db = some (db', now) ∧
      now.length = (runs.map samplesize).sum ∧ Accumulated methodId variant db₀ (drawn ++ now) db' := by
  induction runs generalizing db drawn with
  | nil => exact ⟨db, [], rfl, rfl, by rwa [List.append_nil]⟩
  | cons run runs ih =>
    obtain ⟨hrun, hruns⟩ := List.forall_mem_cons.mp hruns
    obtain ⟨hfirst, hincremental⟩ := List.forall_mem_cons.mp hincremental
    rw [List.map_cons, List.sum_cons] at hbound ⊢
    obtain ⟨db₁, now₁, hprune, hlen₁, h₁⟩ :=
      h.samplingPrune_eq hrun (Or.inl hfirst) hne hdurations hreads (by omega)
    obtain ⟨db', now, hrest, hlen, h'⟩ := ih h₁ hruns hincremental (by rw [List.length_append]; omega)
    refine ⟨db', now₁ ++ now, ?_, by rw [List.length_append, hlen₁, hlen], by rwa [← List.append_assoc]⟩
    rw [samplingRuns, hprune, Option.bind_some, hrest]
    rfl

/-- **The sampling result**: the groups of the variant are those of the rows that were drawn, weighted with the
number of draws. -/
structure Exact (methodId variant : ℕ) (drawn : List (ℕ × ℕ × ℕ)) (db : PruneDb) : Prop where
  groups : ∀ k, k ∈ drawn ↔ ∃ g ∈ db.fspgroup.rows, g.key = (k, methodId) ∧ g.variantId = variant
  weight : ∀ g ∈ db.fspgroup.rows, g.fspmethodId = methodId → g.variantId = variant →
    g.weight = some (drawn.count g.key.1)
  pilot : ∀ g ∈ db.fspgroup.rows, g.fspmethodId = methodId → g.variantId = variant →
    ∃ p, (g.pilotId, p) ∈ db.fsppilot.rows ∧ p.knownOutcome = 0 ∧ p.traceKey = g.key.1
  sum : ((db.fspgroup.rows.filter fun g => g.fspmethodId = methodId ∧ g.variantId = variant).map
    fun g => g.weight.getD 0).sum = drawn.length

theorem Accumulated.variant_of_drawn (h : Accumulated methodId variant db₀ drawn db) {k : ℕ × ℕ × ℕ}
    (hk : k ∈ drawn) :
    k.1 = variant := by
  obtain ⟨t, ht, rfl⟩ := List.mem_map.mp (h.reads k hk)
  exact (mem_readsOf.mp ht).2.1

/-- **The groups of the variant** are those of the rows that were drawn. -/
theorem Accumulated.of_group (h : Accumulated methodId variant db₀ drawn db) {g : Group}
    (hg : g ∈ db.fspgroup.rows) (hmethod : g.fspmethodId = methodId) (hvariant : g.variantId = variant) :
    g.key.1 ∈ drawn ∧ g.weight = some (drawn.count g.key.1) ∧
      ∃ p, (g.pilotId, p) ∈ db.fsppilot.rows ∧ p.knownOutcome = 0 ∧ p.traceKey = g.key.1 := by
  subst hmethod
  have hfind : db.fspgroup.find (g.key.1, g.fspmethodId) = some g := Table.mem_rows_iff.mp hg
  have hk : g.key.1 ∈ drawn := by
    by_contra hnot
    rw [h.absent g.key.1 hvariant hnot] at hfind
    cases hfind
  obtain ⟨g', p, hfind', hweight, hp⟩ := h.present g.key.1 hk
  obtain rfl : g' = g := Option.some.inj (hfind'.symm.trans hfind)
  exact ⟨hk, hweight, p, hp⟩

theorem Accumulated.exists_group (h : Accumulated methodId variant db₀ drawn db) {k : ℕ × ℕ × ℕ}
    (hk : k ∈ drawn) :
    ∃ g ∈ db.fspgroup.rows, g.key = (k, methodId) ∧ g.variantId = variant := by
  obtain ⟨g, p, hfind, -⟩ := h.present k hk
  obtain ⟨hg, hkey⟩ := Table.find_eq_some_iff.mp hfind
  exact ⟨g, hg, hkey, (congrArg (fun key => key.1.1) hkey).trans (h.variant_of_drawn hk)⟩

/-- The groups of the variant, one for every row that was drawn. -/
theorem Accumulated.perm_groups (h : Accumulated methodId variant db₀ drawn db) :
    ((db.fspgroup.rows.filter fun g => g.fspmethodId = methodId ∧ g.variantId = variant).map fun g =>
      g.key.1).Perm
      drawn.dedup := by
  rw [List.perm_ext_iff_of_nodup _ (List.nodup_dedup drawn)]
  · intro k
    simp only [List.mem_dedup, List.mem_map, List.mem_filter, decide_eq_true_eq]
    constructor
    · rintro ⟨g, ⟨hg, hmethod, hvariant⟩, rfl⟩
      exact (h.of_group hg hmethod hvariant).1
    · intro hk
      obtain ⟨g, hg, hkey, hvariant⟩ := h.exists_group hk
      exact ⟨g, ⟨hg, congrArg Prod.snd hkey, hvariant⟩, congrArg Prod.fst hkey⟩
  · refine (db.fspgroup.unique.of_map.sublist List.filter_sublist).map_on fun g hg g' hg' hkey => ?_
    simp only [List.mem_filter, decide_eq_true_eq] at hg hg'
    exact db.fspgroup.eq_of_key hg.1 hg'.1 (Prod.ext hkey (hg.2.1.trans hg'.2.1.symm))

theorem Accumulated.exact (h : Accumulated methodId variant db₀ drawn db) : Exact methodId variant drawn db := by
  refine ⟨fun k => ⟨h.exists_group, ?_⟩, fun g hg hm hv => (h.of_group hg hm hv).2.1,
    fun g hg hm hv => (h.of_group hg hm hv).2.2, ?_⟩
  · rintro ⟨g, hg, hkey, hvariant⟩
    have hk := (h.of_group hg (congrArg Prod.snd hkey) hvariant).1
    rwa [hkey] at hk
  · set groups := db.fspgroup.rows.filter fun g => g.fspmethodId = methodId ∧ g.variantId = variant with hgroups
    calc (groups.map fun g => g.weight.getD 0).sum
        = ((groups.map fun g => g.key.1).map fun k => drawn.count k).sum := by
          rw [List.map_map]
          refine congrArg List.sum (List.map_congr_left fun g hg => ?_)
          simp only [hgroups, List.mem_filter, decide_eq_true_eq] at hg
          rw [(h.of_group hg.1 hg.2.1 hg.2.2).2.1, Option.getD_some]
          rfl
      _ = (drawn.dedup.map fun k => drawn.count k).sum := (h.perm_groups.map _).sum_eq
      _ = drawn.length := by
          rw [lawful_beq_subsingleton (instBEqProd : BEq (ℕ × ℕ × ℕ)) instBEqOfDecidableEq]
          exact List.sum_map_count_dedup_eq_length drawn

/-- A basic pruning prepares runs with known results. -/
theorem basicPruned_of_pruneAll {basic : BasicPruner} {db' : PruneDb} (h : basic.Delivers)
    (hvariants : basic.variants.Nodup) (hclean : basic.Clean db) (hvariant : variant ∈ basic.variants)
    (hprune : basic.pruneAll db = some db') : BasicPruned db' basic.methodId variant := by
  obtain ⟨db'', hprune', htrace, hpilots, -⟩ := basic.pruneAll_eq_some h hvariants hclean
  obtain rfl : db'' = db' := Option.some.inj (hprune'.symm.trans hprune)
  have hold : pilotsOf db.fsppilot.rows variant basic.methodId = [] :=
    pilotsOf_eq_nil fun p hp _ hmethod hv => hclean.pilots p hp hmethod (hv ▸ hvariant)
  have hwrites : pilotsOf ((basic.writePilots db).map fun x => (x.1, basic.pilotOf 1 x.2)) variant
      basic.methodId = [] := by
    refine pilotsOf_eq_nil fun p hp houtcome => ?_
    obtain ⟨x, -, rfl⟩ := List.mem_map.mp hp
    cases houtcome
  have hreads : pilotsOf ((basic.readPilots db).map fun x => (x.1, basic.pilotOf 0 x.2)) variant basic.methodId =
      ((basic.readPilots db).filter fun x => x.2.1 = variant).map fun x => (x.1, basic.pilotOf 0 x.2) := by
    rw [pilotsOf, List.filter_map]
    refine congrArg (List.map _) (List.filter_congr fun x _ => ?_)
    exact decide_eq_decide.mpr ⟨fun hx => hx.2.2, fun hx => ⟨rfl, rfl, hx⟩⟩
  -- only the pilots of the reads have no known outcome
  have hkeys : ((pilotsOf db''.fsppilot.rows variant basic.methodId).map fun p => p.2.traceKey) =
      ((basic.order (basic.reads db.trace.rows)).filter fun t => t.1 = variant).map traceKey := by
    rw [hpilots, BasicPruner.rows_pilots, pilotsOf_append, pilotsOf_append, hold, hreads, hwrites,
      List.nil_append, List.append_nil]
    conv_rhs => rw [← map_snd_number db.fsppilot.next (basic.order (basic.reads db.trace.rows)), List.filter_map]
    rw [List.map_map, List.map_map]
    rfl
  have hperm := (h (basic.reads db.trace.rows)).filter fun t => t.1 = variant
  refine ⟨?_, fun k => ?_⟩
  · rw [hkeys]
    refine (hperm.map traceKey).nodup_iff.mpr ?_
    exact db.trace.unique.sublist ((List.filter_sublist.trans List.filter_sublist).map traceKey)
  · rw [hkeys, (hperm.map traceKey).mem_iff, htrace, List.mem_map, List.mem_map]
    refine exists_congr fun t => and_congr_left fun _ => ?_
    rw [List.mem_filter, BasicPruner.mem_reads, mem_readsOf, decide_eq_true_eq]
    exact ⟨fun ht => ⟨ht.1.1, ht.2, ht.1.2.2⟩, fun ht => ⟨⟨ht.1, ht.2.1 ▸ hvariant, ht.2.2⟩, ht.2.1⟩⟩

/-- **Incremental sampling accumulates exactly**, if every run is regular. -/
theorem sampling_accumulates {first : SamplingPruner} {later : List SamplingPruner}
    (hclean : Clean methodId variant db) (hne : methodId ≠ basicId) (hdurations : HasDurations db variant)
    (hreads : readsOf db.trace.rows variant ≠ []) (hlater : ∀ run ∈ later, run.incremental = true)
    (hruns : ∀ run ∈ first :: later, Regular db basicId variant run)
    (hbound : ((first :: later).map samplesize).sum < 2 ^ 32) :
    ∃ db' drawn, samplingRuns methodId basicId variant (first :: later) db = some (db', drawn) ∧
      drawn.length = ((first :: later).map samplesize).sum ∧
      (∀ k ∈ drawn, k ∈ (readsOf db.trace.rows variant).map traceKey) ∧ Exact methodId variant drawn db' := by
  obtain ⟨hfirst, hruns⟩ := List.forall_mem_cons.mp hruns
  rw [List.map_cons, List.sum_cons] at hbound ⊢
  obtain ⟨db₁, now₁, hprune, hlen₁, h₁⟩ :=
    hclean.accumulated.samplingPrune_eq hfirst (Or.inr rfl) hne hdurations hreads (by simpa using by omega)
  rw [List.nil_append] at h₁
  obtain ⟨db', now, hrest, hlen, h'⟩ := h₁.samplingRuns_eq hne hdurations hreads hruns hlater (by omega)
  refine ⟨db', now₁ ++ now, ?_, by rw [List.length_append, hlen₁, hlen], h'.trace ▸ h'.reads, h'.exact⟩
  rw [samplingRuns, hprune, Option.bind_some, hrest]
  rfl

/-- Two reads with durations 3 and 2, drawn without known results and then, incrementally, with them. -/
theorem sampling_accumulates_switched :
    let row (instr2 time1 time2 : ℕ) : TraceRow :=
      { instr1 := 0, instr1Absolute := none, instr2, instr2Absolute := some 0x1000, time1, time2,
        dataAddress := 8
        width := 1, accesstype := .read, isFake := false }
    let pilot (instr2 : ℕ) : Pilot := ⟨0, 1, instr2, instr2, some 0x1000, 8, 1, 1⟩
    let db : PruneDb :=
      { trace := ⟨[(1, row 3 1 3), (1, row 5 4 5)], by decide⟩
        fsppilot := ⟨[(1, pilot 3), (2, pilot 5)], 3, by decide, by decide⟩
        fspgroup := ⟨[⟨1, 3, 8, 1, 1, none⟩, ⟨1, 5, 8, 1, 2, none⟩], by decide⟩ }
    let first : SamplingPruner := { samplesize := 2, urandom := [0, 7, 2] }
    let second : SamplingPruner :=
      { samplesize := 2, urandom := [4, 1], useKnownResults := true, incremental := true }
    ∃ db' drawn, samplingRuns 2 1 1 [first, second] db = some (db', drawn) ∧
      drawn.length = ([first, second].map samplesize).sum ∧
      (∀ k ∈ drawn, k ∈ (readsOf db.trace.rows 1).map traceKey) ∧ Exact 2 1 drawn db' := by
  intro row pilot db first second
  have hkeys : ((pilotsOf db.fsppilot.rows 1 1).map fun p => p.2.traceKey) =
      (readsOf db.trace.rows 1).map traceKey := by decide
  have hbasic : BasicPruned db 1 1 := ⟨by decide, fun k => by rw [hkeys]⟩
  refine sampling_accumulates ⟨by decide, by decide⟩ (by decide) (by decide) (by decide) (by decide) ?_
    (by decide)
  refine List.forall_mem_cons.mpr ⟨?_, List.forall_mem_singleton.mpr ?_⟩
  · exact ⟨fun α rows => List.Perm.refl rows, by decide +kernel, by decide, fun _ => by decide, fun _ => hbasic⟩
  · exact ⟨fun α rows => List.Perm.refl rows, by decide +kernel, by decide, fun _ => by decide, fun _ => hbasic⟩

/-- **A read without `instr2_absolute` stops the pruner.** The importer makes such a row of the end of the trace
if the right margin of the fault space is a read. -/
theorem null_column_stops_sampling :
    let events : List TraceEvent :=
      [{ ip := 0x10 }, { ip := 0x10, memaddr := some 8, width := some 1, accesstype := some .write },
        { ip := 0x14, timeDelta := some 5 }]
    let rows := ((copyToDatabase { addressBits := 32, faultspaceRightmargin := .read } .memory events).map
      Importer.rows).getD []
    let db : PruneDb :=
      { trace := ⟨rows.map fun row => (1, row), by decide +kernel⟩
        fsppilot := ⟨[], 1, by decide, by decide⟩
        fspgroup := ⟨[], by decide⟩ }
    readsOf db.trace.rows 1 ≠ [] ∧ HasDurations db 1 ∧ Clean 2 1 db ∧
      samplingRuns 2 1 1 [{ samplesize := 1, urandom := [0] }] db = none := by
  intro events rows db
  have hrows : readsOf db.trace.rows 1 =
      [(1, { instr1 := 1, instr1Absolute := none, instr2 := 1, instr2Absolute := none, time1 := 1, time2 := 5
             dataAddress := 8, width := 1, accesstype := .read, isFake := true })] := by decide +kernel
  refine ⟨by simp [hrows], by rw [HasDurations, hrows]; decide, ⟨by decide, by decide⟩, ?_⟩
  have hload : SamplingPruner.load { samplesize := 1, urandom := [0] } 2 1 1 db = none := by
    rw [load, if_neg Bool.false_ne_true, loadTrace, hrows]
    rfl
  rw [samplingRuns, samplingPrune, hload]
  rfl

end SamplingPruner

end FailStar.PruneTrace
