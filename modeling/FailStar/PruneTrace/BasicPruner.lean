import FailStar.PruneTrace.Tables

/-! # The basic pruner

`BasicPruner` makes every read a pilot of its own. The outcome of a write is known, so that one pilot of every
variant stands for all of them.

* **`BasicPruner.pruneAll`** — the statements, one after the other.
* **`groupsOfReads_eq`**, **`groupsOfWrites_eq`** — what the joins find.
* **`basic_pruning_partitions`** — every row of the trace is in exactly one group. -/

namespace FailStar.PruneTrace

open ImportTrace

/-! ## The statements -/

/-- `BasicPruner`, with the order in which the database delivers rows of the `trace` table. -/
structure BasicPruner where
  useInstr1 : Bool := false
  /-- `m_method_id`. -/
  methodId : ℕ
  /-- `m_variants`. -/
  variants : List ℕ
  order : List TraceEntry → List TraceEntry := id

namespace BasicPruner

/-- The pilot that is made of a trace row. -/
def pilotOf (pruner : BasicPruner) (knownOutcome : ℕ) (t : TraceEntry) : Pilot where
  knownOutcome := knownOutcome
  variantId := t.1
  instr2 := t.2.instr2
  injectionInstr := if pruner.useInstr1 then t.2.instr1 else t.2.instr2
  injectionInstrAbsolute := if pruner.useInstr1 then t.2.instr1Absolute else t.2.instr2Absolute
  dataAddress := t.2.dataAddress
  dataWidth := t.2.width
  fspmethodId := pruner.methodId

/-- The reads of all variants. -/
def reads (pruner : BasicPruner) (trace : List TraceEntry) : List TraceEntry :=
  trace.filter fun t => t.1 ∈ pruner.variants ∧ t.2.accesstype = .read

/-- The writes of a variant. -/
def writesOf (trace : List TraceEntry) (variant : ℕ) : List TraceEntry :=
  trace.filter fun t => t.1 = variant ∧ t.2.accesstype = .write

/-- `ORDER BY instr2 ASC LIMIT 1`. -/
def firstWrite (pruner : BasicPruner) (trace : List TraceEntry) (variant : ℕ) : List TraceEntry :=
  ((pruner.order (writesOf trace variant)).mergeSort fun t t' => decide (t.2.instr2 ≤ t'.2.instr2)).take 1

/-- The pilots: one for each read, and one for the writes of each variant. -/
def pilots (pruner : BasicPruner) (trace : List TraceEntry) (fsppilot : AutoTable Pilot) : AutoTable Pilot :=
  pruner.variants.foldl
    (fun fsppilot variant => fsppilot.insert ((pruner.firstWrite trace variant).map (pruner.pilotOf 1)))
    (fsppilot.insert ((pruner.order (pruner.reads trace)).map (pruner.pilotOf 0)))

/-- The groups of reads: the pilots are joined with the trace rows they are made of. -/
def groupsOfReads (pruner : BasicPruner) (trace : List TraceEntry) (fsppilot : List (ℕ × Pilot)) : List Group :=
  (fsppilot.filter fun p =>
      p.2.knownOutcome = 0 ∧ p.2.fspmethodId = pruner.methodId ∧
        p.2.variantId ∈ pruner.variants).flatMap fun p =>
    (trace.filter fun t =>
        t.1 = p.2.variantId ∧ t.2.instr2 = p.2.instr2 ∧ t.2.dataAddress = p.2.dataAddress).map fun _ =>
      { variantId := p.2.variantId, instr2 := p.2.instr2, dataAddress := p.2.dataAddress,
        fspmethodId := p.2.fspmethodId, pilotId := p.1 }

/-- The groups of writes: the pilots with a known outcome are joined with all writes of the variant. -/
def groupsOfWrites (pruner : BasicPruner) (trace : List TraceEntry) (fsppilot : List (ℕ × Pilot)) : List Group :=
  fsppilot.flatMap fun p =>
    (trace.filter fun t =>
        (t.1 = p.2.variantId ∧ p.2.fspmethodId = pruner.methodId ∧ p.2.knownOutcome = 1) ∧
          t.1 ∈ pruner.variants ∧ t.2.accesstype = .write).map fun t =>
      { variantId := t.1, instr2 := t.2.instr2, dataAddress := t.2.dataAddress, fspmethodId := p.2.fspmethodId,
        pilotId := p.1 }

/-- **`prune_all()`.** It fails if a statement does. -/
def pruneAll (pruner : BasicPruner) (db : PruneDb) : Option PruneDb :=
  let fsppilot := pruner.pilots db.trace.rows db.fsppilot
  (db.fspgroup.insert (pruner.groupsOfReads db.trace.rows fsppilot.rows)).bind fun fspgroup =>
    (fspgroup.insert (pruner.groupsOfWrites db.trace.rows fsppilot.rows)).map fun fspgroup =>
      { db with fsppilot, fspgroup }

/-! ## The pilots -/

/-- The variants have not been pruned with the method. -/
structure Clean (pruner : BasicPruner) (db : PruneDb) : Prop where
  pilots : ∀ p ∈ db.fsppilot.rows, p.2.fspmethodId = pruner.methodId → p.2.variantId ∉ pruner.variants
  groups : ∀ g ∈ db.fspgroup.rows, g.fspmethodId = pruner.methodId → g.variantId ∉ pruner.variants

/-- The database delivers all rows in some order. -/
def Delivers (pruner : BasicPruner) : Prop := ∀ ts, (pruner.order ts).Perm ts

/-- The first writes of all variants. -/
def firstWrites (pruner : BasicPruner) (trace : List TraceEntry) : List TraceEntry :=
  pruner.variants.flatMap (pruner.firstWrite trace)

variable {pruner : BasicPruner} {db : PruneDb} {trace : List TraceEntry} {fsppilot : AutoTable Pilot}
    {t : TraceEntry}

/-- The new pilots of reads, with their `id`. -/
def readPilots (pruner : BasicPruner) (db : PruneDb) : List (ℕ × TraceEntry) :=
  number db.fsppilot.next (pruner.order (pruner.reads db.trace.rows))

/-- The new pilots of writes, with their `id`. -/
def writePilots (pruner : BasicPruner) (db : PruneDb) : List (ℕ × TraceEntry) :=
  number (db.fsppilot.next + (pruner.order (pruner.reads db.trace.rows)).length)
    (pruner.firstWrites db.trace.rows)

theorem rows_pilots (pruner : BasicPruner) (db : PruneDb) :
    (pruner.pilots db.trace.rows db.fsppilot).rows =
      db.fsppilot.rows ++ (pruner.readPilots db).map (fun x => (x.1, pruner.pilotOf 0 x.2)) ++
        (pruner.writePilots db).map (fun x => (x.1, pruner.pilotOf 1 x.2)) := by
  have hwrites : pruner.variants.flatMap (fun v => (pruner.firstWrite db.trace.rows v).map (pruner.pilotOf 1)) =
      (pruner.firstWrites db.trace.rows).map (pruner.pilotOf 1) := List.map_flatMap.symm
  rw [pilots, AutoTable.foldl_insert, AutoTable.insert_insert, hwrites, AutoTable.rows_insert, number_append,
    number_map, number_map, List.length_map, List.append_assoc]
  rfl

theorem mem_reads : t ∈ pruner.reads trace ↔ t ∈ trace ∧ t.1 ∈ pruner.variants ∧ t.2.accesstype = .read := by
  simp [reads]

theorem mem_writesOf {v : ℕ} : t ∈ writesOf trace v ↔ t ∈ trace ∧ t.1 = v ∧ t.2.accesstype = .write := by
  simp [writesOf]

theorem firstWrite_cases (h : pruner.Delivers) (trace : List TraceEntry) (v : ℕ) :
    (pruner.firstWrite trace v = [] ∧ writesOf trace v = []) ∨
      ∃ t ∈ writesOf trace v, pruner.firstWrite trace v = [t] := by
  have hperm := (List.mergeSort_perm (pruner.order (writesOf trace v))
    fun t t' => decide (t.2.instr2 ≤ t'.2.instr2)).trans (h _)
  rw [firstWrite]
  generalize (pruner.order (writesOf trace v)).mergeSort
    (fun t t' => decide (t.2.instr2 ≤ t'.2.instr2)) = ts at hperm
  cases ts with
  | nil => exact Or.inl ⟨rfl, hperm.symm.eq_nil⟩
  | cons t ts => exact Or.inr ⟨t, hperm.subset List.mem_cons_self, rfl⟩

theorem mem_firstWrite (h : pruner.Delivers) {v : ℕ} (ht : t ∈ pruner.firstWrite trace v) :
    t ∈ writesOf trace v := by
  obtain ⟨hnil, -⟩ | ⟨t', ht', hone⟩ := firstWrite_cases h trace v
  · rw [hnil] at ht
    cases ht
  · rw [hone] at ht
    rwa [List.mem_singleton.mp ht]

theorem mem_firstWrites (h : pruner.Delivers) (ht : t ∈ pruner.firstWrites trace) :
    t ∈ trace ∧ t.1 ∈ pruner.variants ∧ t.2.accesstype = .write := by
  obtain ⟨v, hv, ht⟩ := List.mem_flatMap.mp ht
  obtain ⟨hmem, rfl, hwrite⟩ := mem_writesOf.mp (mem_firstWrite h ht)
  exact ⟨hmem, hv, hwrite⟩

theorem nodup_firstWrites (h : pruner.Delivers) (hvariants : pruner.variants.Nodup) (trace : List TraceEntry) :
    ((pruner.firstWrites trace).map Prod.fst).Nodup := by
  rw [firstWrites, List.map_flatMap, List.nodup_flatMap]
  constructor
  · intro v _
    obtain ⟨hnil, -⟩ | ⟨t, -, hone⟩ := firstWrite_cases h trace v
    · rw [hnil]
      exact List.nodup_nil
    · rw [hone]
      exact List.nodup_singleton _
  · refine hvariants.imp fun {v v'} hne a ha ha' => hne ?_
    obtain ⟨t, ht, rfl⟩ := List.mem_map.mp ha
    obtain ⟨t', ht', heq⟩ := List.mem_map.mp ha'
    rw [← (mem_writesOf.mp (mem_firstWrite h ht)).2.1, ← (mem_writesOf.mp (mem_firstWrite h ht')).2.1, heq]

/-! ## The groups -/

/-- The group of a trace row. -/
def groupOf (pruner : BasicPruner) (pilotId : ℕ) (t : TraceEntry) : Group where
  variantId := t.1
  instr2 := t.2.instr2
  dataAddress := t.2.dataAddress
  fspmethodId := pruner.methodId
  pilotId := pilotId

theorem mem_readPilots (h : pruner.Delivers) {x : ℕ × TraceEntry} (hx : x ∈ pruner.readPilots db) :
    x.2 ∈ pruner.reads db.trace.rows :=
  (h _).subset (snd_mem_of_number hx)

/-- **The pilots of reads are joined with the rows they are made of**, as those are unique. -/
theorem groupsOfReads_eq (h : pruner.Delivers) (hclean : pruner.Clean db) :
    pruner.groupsOfReads db.trace.rows (pruner.pilots db.trace.rows db.fsppilot).rows =
      (pruner.readPilots db).map fun x => pruner.groupOf x.1 x.2 := by
  have hold : (db.fsppilot.rows.filter fun p => p.2.knownOutcome = 0 ∧ p.2.fspmethodId = pruner.methodId ∧
      p.2.variantId ∈ pruner.variants) = [] := by
    rw [List.filter_eq_nil_iff]
    intro p hp hcond
    obtain ⟨-, hmethod, hvariant⟩ := of_decide_eq_true hcond
    exact hclean.pilots p hp hmethod hvariant
  have hnew : (((pruner.readPilots db).map fun x => (x.1, pruner.pilotOf 0 x.2)).filter fun p =>
      p.2.knownOutcome = 0 ∧ p.2.fspmethodId = pruner.methodId ∧ p.2.variantId ∈ pruner.variants) =
        (pruner.readPilots db).map fun x => (x.1, pruner.pilotOf 0 x.2) := by
    rw [List.filter_eq_self]
    intro p hp
    obtain ⟨x, hx, rfl⟩ := List.mem_map.mp hp
    exact decide_eq_true ⟨rfl, rfl, (mem_reads.mp (mem_readPilots h hx)).2.1⟩
  have hwrites : (((pruner.writePilots db).map fun x => (x.1, pruner.pilotOf 1 x.2)).filter fun p =>
      p.2.knownOutcome = 0 ∧ p.2.fspmethodId = pruner.methodId ∧ p.2.variantId ∈ pruner.variants) = [] := by
    rw [List.filter_eq_nil_iff]
    intro p hp hcond
    obtain ⟨x, -, rfl⟩ := List.mem_map.mp hp
    exact absurd (of_decide_eq_true hcond).1 Nat.one_ne_zero
  rw [groupsOfReads, rows_pilots, List.filter_append, List.filter_append, hold, hnew, hwrites, List.nil_append,
    List.append_nil, List.flatMap_map, List.map_eq_flatMap]
  refine List.flatMap_congr fun x hx => ?_
  -- the row is found by its key
  have hrow : (db.trace.rows.filter fun t => t.1 = x.2.1 ∧ t.2.instr2 = x.2.2.instr2 ∧
      t.2.dataAddress = x.2.2.dataAddress) = [x.2] := by
    rw [← db.trace.filter_key (mem_reads.mp (mem_readPilots h hx)).1]
    refine List.filter_congr fun t _ => ?_
    simp only [traceKey, Prod.mk.injEq, decide_eq_decide]
    tauto
  have hrow' : (db.trace.rows.filter fun t => t.1 = (pruner.pilotOf 0 x.2).variantId ∧
      t.2.instr2 = (pruner.pilotOf 0 x.2).instr2 ∧ t.2.dataAddress = (pruner.pilotOf 0 x.2).dataAddress) =
        [x.2] := hrow
  rw [hrow']
  rfl

theorem mem_writePilots (h : pruner.Delivers) {x : ℕ × TraceEntry} (hx : x ∈ pruner.writePilots db) :
    x.2 ∈ db.trace.rows ∧ x.2.1 ∈ pruner.variants ∧ x.2.2.accesstype = .write :=
  mem_firstWrites h (snd_mem_of_number hx)

/-- **The pilot of the writes of a variant is joined with all of them.** -/
theorem groupsOfWrites_eq (h : pruner.Delivers) (hclean : pruner.Clean db) :
    pruner.groupsOfWrites db.trace.rows (pruner.pilots db.trace.rows db.fsppilot).rows =
      (pruner.writePilots db).flatMap fun x =>
        (writesOf db.trace.rows x.2.1).map fun t => pruner.groupOf x.1 t := by
  -- pilots of reads and pilots of before are not joined with any row
  have hskip : ∀ p : ℕ × Pilot, (p.2.fspmethodId = pruner.methodId → p.2.knownOutcome = 1 →
      p.2.variantId ∉ pruner.variants) →
        (db.trace.rows.filter fun t => (t.1 = p.2.variantId ∧ p.2.fspmethodId = pruner.methodId ∧
          p.2.knownOutcome = 1) ∧ t.1 ∈ pruner.variants ∧ t.2.accesstype = .write) = [] := by
    intro p hp
    rw [List.filter_eq_nil_iff]
    intro t _ hcond
    obtain ⟨⟨hvariant, hmethod, hknown⟩, hmem, -⟩ := of_decide_eq_true hcond
    exact hp hmethod hknown (hvariant ▸ hmem)
  rw [groupsOfWrites, rows_pilots, List.flatMap_append, List.flatMap_append, List.flatMap_eq_nil_iff.mpr,
    List.flatMap_eq_nil_iff.mpr, List.nil_append, List.nil_append, List.flatMap_map]
  · refine List.flatMap_congr fun x hx => ?_
    have hwrites : (db.trace.rows.filter fun t => (t.1 = (pruner.pilotOf 1 x.2).variantId ∧
        (pruner.pilotOf 1 x.2).fspmethodId = pruner.methodId ∧ (pruner.pilotOf 1 x.2).knownOutcome = 1) ∧
          t.1 ∈ pruner.variants ∧ t.2.accesstype = .write) = writesOf db.trace.rows x.2.1 := by
      refine List.filter_congr fun t _ => ?_
      rw [decide_eq_decide]
      constructor
      · rintro ⟨⟨hvariant, -, -⟩, -, hwrite⟩
        exact ⟨hvariant, hwrite⟩
      · rintro ⟨hvariant, hwrite⟩
        exact ⟨⟨hvariant, rfl, rfl⟩, hvariant ▸ (mem_writePilots h hx).2.1, hwrite⟩
    rw [hwrites]
    rfl
  · intro p hp
    obtain ⟨x, -, rfl⟩ := List.mem_map.mp hp
    rw [hskip _ fun _ hknown => absurd hknown Nat.zero_ne_one]
    rfl
  · intro p hp
    rw [hskip p fun hmethod _ => hclean.pilots p hp hmethod]
    rfl

/-! ## The keys -/

theorem nodup_keys_reads (h : pruner.Delivers) (db : PruneDb) :
    (((pruner.readPilots db).map fun x => pruner.groupOf x.1 x.2).map Group.key).Nodup := by
  have hkeys : ((pruner.readPilots db).map fun x => pruner.groupOf x.1 x.2).map Group.key =
      ((pruner.order (pruner.reads db.trace.rows)).map traceKey).map fun k => (k, pruner.methodId) := by
    conv_rhs => rw [← map_snd_number db.fsppilot.next (pruner.order (pruner.reads db.trace.rows))]
    rw [List.map_map, List.map_map, List.map_map]
    rfl
  rw [hkeys]
  refine List.Nodup.map (fun k k' hkk => (Prod.mk.inj hkk).1) ?_
  exact ((h _).map traceKey).nodup_iff.mpr (db.trace.unique.sublist (List.filter_sublist.map traceKey))

theorem nodup_keys_writes (h : pruner.Delivers) (hvariants : pruner.variants.Nodup) (db : PruneDb) :
    (((pruner.writePilots db).flatMap fun x =>
      (writesOf db.trace.rows x.2.1).map fun t => pruner.groupOf x.1 t).map Group.key).Nodup := by
  rw [List.map_flatMap, List.nodup_flatMap]
  constructor
  · intro x _
    rw [List.map_map]
    have hkeys : (writesOf db.trace.rows x.2.1).map (Group.key ∘ fun t => pruner.groupOf x.1 t) =
        ((writesOf db.trace.rows x.2.1).map traceKey).map fun k => (k, pruner.methodId) := by
      rw [List.map_map]
      rfl
    rw [hkeys]
    refine List.Nodup.map (fun k k' hkk => (Prod.mk.inj hkk).1) ?_
    exact db.trace.unique.sublist (List.filter_sublist.map traceKey)
  · -- different pilots belong to different variants
    have hnodup := nodup_firstWrites h hvariants db.trace.rows
    rw [← map_snd_number (db.fsppilot.next + (pruner.order (pruner.reads db.trace.rows)).length)
      (pruner.firstWrites db.trace.rows), List.map_map, List.Nodup, List.pairwise_map] at hnodup
    refine hnodup.imp fun {x y} hne k hk hk' => hne ?_
    dsimp only at hk hk'
    rw [List.map_map] at hk hk'
    obtain ⟨t, ht, rfl⟩ := List.mem_map.mp hk
    obtain ⟨t', ht', heq⟩ := List.mem_map.mp hk'
    have hvariant : t'.1 = t.1 := congrArg (fun k => k.1.1) heq
    exact (mem_writesOf.mp ht).2.1.symm.trans (hvariant.symm.trans (mem_writesOf.mp ht').2.1)

theorem mem_groupsOfWrites {g : Group} (hg : g ∈ (pruner.writePilots db).flatMap fun x =>
      (writesOf db.trace.rows x.2.1).map fun t => pruner.groupOf x.1 t) :
    ∃ x ∈ pruner.writePilots db, ∃ t ∈ writesOf db.trace.rows x.2.1, g = pruner.groupOf x.1 t := by
  obtain ⟨x, hx, hg⟩ := List.mem_flatMap.mp hg
  obtain ⟨t, ht, rfl⟩ := List.mem_map.mp hg
  exact ⟨x, hx, t, ht, rfl⟩

/-- **Both statements that make groups succeed**: no primary key is inserted twice. -/
theorem pruneAll_eq_some (h : pruner.Delivers) (hvariants : pruner.variants.Nodup) (hclean : pruner.Clean db) :
    ∃ db', pruner.pruneAll db = some db' ∧ db'.trace = db.trace ∧
      db'.fsppilot = pruner.pilots db.trace.rows db.fsppilot ∧
      db'.fspgroup.rows = db.fspgroup.rows ++ ((pruner.readPilots db).map fun x => pruner.groupOf x.1 x.2) ++
        ((pruner.writePilots db).flatMap fun x => (writesOf db.trace.rows x.2.1).map fun t =>
          pruner.groupOf x.1 t) := by
  have hvariant : ∀ g ∈ db.fspgroup.rows, ∀ (pilotId : ℕ) (t : TraceEntry), t.1 ∈ pruner.variants →
      g.key ≠ (pruner.groupOf pilotId t).key := by
    intro g hg pilotId t ht hkey
    refine hclean.groups g hg (congrArg Prod.snd hkey) ?_
    rw [show g.variantId = t.1 from congrArg (fun k => k.1.1) hkey]
    exact ht
  obtain ⟨fspgroup₁, hinsert₁, hrows₁⟩ := Table.insert_eq_some (t := db.fspgroup) (nodup_keys_reads h db) (by
    intro g hg g' hg'
    obtain ⟨x, hx, rfl⟩ := List.mem_map.mp hg'
    exact hvariant g hg x.1 x.2 (mem_reads.mp (mem_readPilots h hx)).2.1)
  obtain ⟨fspgroup₂, hinsert₂, hrows₂⟩ :=
    Table.insert_eq_some (t := fspgroup₁) (nodup_keys_writes h hvariants db) (by
    intro g hg g' hg'
    obtain ⟨x, hx, t, ht, rfl⟩ := mem_groupsOfWrites hg'
    obtain ⟨hmem, ht1, hwrite⟩ := mem_writesOf.mp ht
    rw [hrows₁] at hg
    obtain hg | hg := List.mem_append.mp hg
    · refine hvariant g hg x.1 t ?_
      rw [ht1]
      exact (mem_writePilots h hx).2.1
    · -- a read and a write are different rows
      obtain ⟨y, hy, rfl⟩ := List.mem_map.mp hg
      intro hkey
      obtain ⟨hmem', -, hread⟩ := mem_reads.mp (mem_readPilots h hy)
      have heq := db.trace.eq_of_key hmem' hmem (congrArg Prod.fst hkey)
      rw [← heq, hread] at hwrite
      cases hwrite)
  refine ⟨⟨db.trace, pruner.pilots db.trace.rows db.fsppilot, fspgroup₂⟩, ?_, rfl, rfl, ?_⟩
  · rw [pruneAll, groupsOfReads_eq h hclean, groupsOfWrites_eq h hclean, hinsert₁, Option.bind_some, hinsert₂]
    rfl
  · rw [hrows₂, hrows₁]

/-- **What basic pruning does.** -/
structure Partitioned (pruner : BasicPruner) (db db' : PruneDb) : Prop where
  trace : db'.trace = db.trace
  /-- Every row has exactly one group. -/
  grouped : ∀ t ∈ db.trace.rows, t.1 ∈ pruner.variants →
    ∃! g, g ∈ db'.fspgroup.rows ∧ g.key = (traceKey t, pruner.methodId)
  /-- The group of a read refers to a pilot of its own, provided that the groups of before did not refer to
  pilots that did not exist. -/
  read : ∀ t ∈ db.trace.rows, t.1 ∈ pruner.variants → t.2.accesstype = .read →
    ∀ g ∈ db'.fspgroup.rows, g.key = (traceKey t, pruner.methodId) →
      (∃ p, (g.pilotId, p) ∈ db'.fsppilot.rows ∧ p.knownOutcome = 0 ∧ p.traceKey = traceKey t ∧
        p.dataWidth = t.2.width) ∧
      ∀ g' ∈ db'.fspgroup.rows, db.Assigned ∨ g' ∉ db.fspgroup.rows → g'.pilotId = g.pilotId → g' = g
  /-- The groups of all writes of a variant refer to one pilot. -/
  write : ∀ v ∈ pruner.variants, writesOf db.trace.rows v ≠ [] →
    ∃ id p, (id, p) ∈ db'.fsppilot.rows ∧ p.knownOutcome = 1 ∧ p.variantId = v ∧
      ∀ t ∈ writesOf db.trace.rows v, ∀ g ∈ db'.fspgroup.rows, g.key = (traceKey t, pruner.methodId) →
        g.pilotId = id
  /-- Nothing else changes. -/
  pilots : ∃ new, db'.fsppilot.rows = db.fsppilot.rows ++ new ∧
    ∀ p ∈ new, p.2.fspmethodId = pruner.methodId ∧ p.2.variantId ∈ pruner.variants
  groups : ∃ new, db'.fspgroup.rows = db.fspgroup.rows ++ new ∧
    ∀ g ∈ new, g.fspmethodId = pruner.methodId ∧ g.variantId ∈ pruner.variants

theorem exists_readPilot (h : pruner.Delivers) (ht : t ∈ pruner.reads db.trace.rows) :
    ∃ id, (id, t) ∈ pruner.readPilots db :=
  exists_number ((h _).symm.subset ht) _

theorem exists_writePilot (h : pruner.Delivers) {v : ℕ} (hv : v ∈ pruner.variants)
    (hwrites : writesOf db.trace.rows v ≠ []) : ∃ x ∈ pruner.writePilots db, x.2.1 = v := by
  obtain ⟨-, hnil⟩ | ⟨t, ht, hone⟩ := firstWrite_cases h db.trace.rows v
  · exact absurd hnil hwrites
  · have hmem : t ∈ pruner.firstWrites db.trace.rows := List.mem_flatMap.mpr ⟨v, hv, by rw [hone]; simp⟩
    obtain ⟨id, hid⟩ := exists_number hmem
      (db.fsppilot.next + (pruner.order (pruner.reads db.trace.rows)).length)
    exact ⟨(id, t), hid, (mem_writesOf.mp ht).2.1⟩

theorem fst_lt_of_pilots {x y : ℕ × TraceEntry} (hx : x ∈ pruner.readPilots db)
    (hy : y ∈ pruner.writePilots db) :
    x.1 < y.1 :=
  lt_of_lt_of_le (fst_number hx).2 (fst_number hy).1

/-- The group of a read is the only one that refers to its pilot. -/
theorem pilotId_readPilots {x : ℕ × TraceEntry} (hx : x ∈ pruner.readPilots db) {g : Group}
    (hg : g ∈ db.fspgroup.rows ++ ((pruner.readPilots db).map fun x => pruner.groupOf x.1 x.2) ++
      ((pruner.writePilots db).flatMap fun x => (writesOf db.trace.rows x.2.1).map fun t =>
        pruner.groupOf x.1 t))
    (hassigned : db.Assigned ∨ g ∉ db.fspgroup.rows) (hid : g.pilotId = x.1) : g = pruner.groupOf x.1 x.2 := by
  obtain hg | hg := List.mem_append.mp hg
  · obtain hg | hg := List.mem_append.mp hg
    · have hlt : g.pilotId < db.fsppilot.next := hassigned.resolve_right (not_not_intro hg) g hg
      have hle := (fst_number hx).1
      omega
    · obtain ⟨y, hy, rfl⟩ := List.mem_map.mp hg
      rw [List.inj_on_of_nodup_map (nodup_number _ _) hy hx hid]
  · obtain ⟨y, hy, t, -, rfl⟩ := mem_groupsOfWrites hg
    exact absurd hid (fst_lt_of_pilots hx hy).ne'

theorem variant_of_newPilots (h : pruner.Delivers) (db : PruneDb) :
    ∀ p ∈ ((pruner.readPilots db).map fun x => (x.1, pruner.pilotOf 0 x.2)) ++
        ((pruner.writePilots db).map fun x => (x.1, pruner.pilotOf 1 x.2)),
      p.2.fspmethodId = pruner.methodId ∧ p.2.variantId ∈ pruner.variants := by
  intro p hp
  obtain hp | hp := List.mem_append.mp hp
  · obtain ⟨x, hx, rfl⟩ := List.mem_map.mp hp
    exact ⟨rfl, (mem_reads.mp (mem_readPilots h hx)).2.1⟩
  · obtain ⟨x, hx, rfl⟩ := List.mem_map.mp hp
    exact ⟨rfl, (mem_writePilots h hx).2.1⟩

theorem variant_of_newGroups (h : pruner.Delivers) (db : PruneDb) :
    ∀ g ∈ ((pruner.readPilots db).map fun x => pruner.groupOf x.1 x.2) ++
        ((pruner.writePilots db).flatMap fun x => (writesOf db.trace.rows x.2.1).map fun t =>
          pruner.groupOf x.1 t),
      g.fspmethodId = pruner.methodId ∧ g.variantId ∈ pruner.variants := by
  intro g hg
  obtain hg | hg := List.mem_append.mp hg
  · obtain ⟨x, hx, rfl⟩ := List.mem_map.mp hg
    exact ⟨rfl, (mem_reads.mp (mem_readPilots h hx)).2.1⟩
  · obtain ⟨x, hx, t, ht, rfl⟩ := mem_groupsOfWrites hg
    refine ⟨rfl, ?_⟩
    rw [show (pruner.groupOf x.1 t).variantId = x.2.1 from (mem_writesOf.mp ht).2.1]
    exact (mem_writePilots h hx).2.1

/-- **Basic pruning partitions the trace.** -/
theorem basic_pruning_partitions (h : pruner.Delivers) (hvariants : pruner.variants.Nodup)
    (hclean : pruner.Clean db) : ∃ db', pruner.pruneAll db = some db' ∧ Partitioned pruner db db' := by
  obtain ⟨db', hprune, htrace, hpilots, hgroups⟩ := pruneAll_eq_some h hvariants hclean
  have hrows := rows_pilots pruner db
  rw [← hpilots] at hrows
  -- the group of a read, and the groups of the writes of a variant
  have hread : ∀ t ∈ pruner.reads db.trace.rows, ∃ id, (id, t) ∈ pruner.readPilots db ∧
      pruner.groupOf id t ∈ db'.fspgroup.rows := by
    intro t ht
    obtain ⟨id, hid⟩ := exists_readPilot h ht
    refine ⟨id, hid, ?_⟩
    rw [hgroups]
    exact List.mem_append_left _ (List.mem_append_right _ (List.mem_map.mpr ⟨(id, t), hid, rfl⟩))
  have hwrite : ∀ v ∈ pruner.variants, writesOf db.trace.rows v ≠ [] → ∃ x ∈ pruner.writePilots db, x.2.1 = v ∧
      ∀ t ∈ writesOf db.trace.rows v, pruner.groupOf x.1 t ∈ db'.fspgroup.rows := by
    intro v hv hwrites
    obtain ⟨x, hx, rfl⟩ := exists_writePilot h hv hwrites
    refine ⟨x, hx, rfl, fun t ht => ?_⟩
    rw [hgroups]
    exact List.mem_append_right _ (List.mem_flatMap.mpr ⟨x, hx, List.mem_map.mpr ⟨t, ht, rfl⟩⟩)
  refine ⟨db', hprune, htrace, ?_, ?_, ?_, ?_, ?_⟩
  · intro t ht hv
    have hex : ∃ id, pruner.groupOf id t ∈ db'.fspgroup.rows := by
      cases haccess : t.2.accesstype with
      | read =>
        obtain ⟨id, -, hg⟩ := hread t (mem_reads.mpr ⟨ht, hv, haccess⟩)
        exact ⟨id, hg⟩
      | write =>
        have hmem : t ∈ writesOf db.trace.rows t.1 := mem_writesOf.mpr ⟨ht, rfl, haccess⟩
        obtain ⟨x, -, -, hg⟩ := hwrite t.1 hv (List.ne_nil_of_mem hmem)
        exact ⟨x.1, hg t hmem⟩
    obtain ⟨id, hg⟩ := hex
    exact ⟨pruner.groupOf id t, ⟨hg, rfl⟩, fun g' hg' => db'.fspgroup.eq_of_key hg'.1 hg hg'.2⟩
  · intro t ht hv haccess g hg hkey
    obtain ⟨id, hid, hmem⟩ := hread t (mem_reads.mpr ⟨ht, hv, haccess⟩)
    obtain rfl : g = pruner.groupOf id t := db'.fspgroup.eq_of_key hg hmem hkey
    refine ⟨⟨pruner.pilotOf 0 t, ?_, rfl, rfl, rfl⟩, ?_⟩
    · rw [hrows]
      exact List.mem_append_left _ (List.mem_append_right _ (List.mem_map.mpr ⟨(id, t), hid, rfl⟩))
    · intro g' hg' hassigned hsame
      rw [hgroups] at hg'
      exact pilotId_readPilots hid hg' hassigned hsame
  · intro v hv hwrites
    obtain ⟨x, hx, hxv, hmem⟩ := hwrite v hv hwrites
    refine ⟨x.1, pruner.pilotOf 1 x.2, ?_, rfl, hxv, fun t ht g hg hkey => ?_⟩
    · rw [hrows]
      exact List.mem_append_right _ (List.mem_map.mpr ⟨x, hx, rfl⟩)
    · rw [db'.fspgroup.eq_of_key hg (hmem t ht) hkey]
      rfl
  · exact ⟨_, hrows.trans (List.append_assoc ..), variant_of_newPilots h db⟩
  · exact ⟨_, hgroups.trans (List.append_assoc ..), variant_of_newGroups h db⟩

/-- Two variants: the first one has a read and two writes, the second one a read. A third variant has been pruned
with the same method before. -/
theorem basic_pruning_partitions_twoVariants :
    let row (instr2 dataAddress : ℕ) (accesstype : AccessType) : TraceRow :=
      { instr1 := 0, instr1Absolute := none, instr2, instr2Absolute := some 0x1000, time1 := 0, time2 := instr2,
        dataAddress, width := 1, accesstype, isFake := false }
    let db : PruneDb :=
      { trace := ⟨[(1, row 3 8 .read), (1, row 5 8 .write), (1, row 4 9 .write), (2, row 3 8 .read),
        (3, row 1 8 .read)],
          by decide⟩
        fsppilot := ⟨[(7, ⟨0, 3, 1, 1, some 0x1000, 8, 1, 6⟩)], 8, by decide, by decide⟩
        fspgroup := ⟨[⟨3, 1, 8, 6, 7, none⟩], by decide⟩ }
    let pruner : BasicPruner := { methodId := 6, variants := [1, 2] }
    ∃ db', pruner.pruneAll db = some db' ∧ Partitioned pruner db db' :=
  basic_pruning_partitions (fun ts => List.Perm.refl ts) (by decide)
    ⟨by decide, by decide⟩

end BasicPruner

end FailStar.PruneTrace
