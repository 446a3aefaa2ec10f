import FailStar.Foundations.Intervals
import FailStar.ImportTrace.Importer

/-! # The sanity checks behind the import

With `--enable-sanitychecks`, `copy_to_database` asks the database six questions about the rows of the
variant: three kinds of queries, each for the two axes of the fault space. Every row a query returns is a
violation.

* **`overlapQuery`** — the self-join that looks for overlapping equivalence classes.
* **`rowSumQuery`** — the widths of the classes of an address do not add up to the total width.
* **`rectangularQuery`** — the first and the last point of an address are not those of the variant.
* **`Tessellated`** — what the queries are meant to establish: the classes of every address are disjoint and
  cover the same range.
* **`checks_tessellate_iff`** — when they establish it. The self-join compares `t2.instr2` with itself, so
  that it does not see two overlapping classes that begin at the same instruction. -/

namespace FailStar.ImportTrace

/-- The `trace` table: rows with their `variant_id`. -/
abbrev TraceTable := List (ℕ × TraceRow)

/-- The rows of a variant. -/
def TraceTable.ofVariant (table : TraceTable) (variantId : ℕ) : List TraceRow :=
  (table.filter fun t => t.1 = variantId).map Prod.snd

/-- An axis of the fault space: the columns with the first and the last point of a class. -/
structure Axis where
  first : TraceRow → ℕ
  last : TraceRow → ℕ

namespace Axis

/-- The axis of the dynamic instructions. -/
def instr : Axis := ⟨TraceRow.instr1, TraceRow.instr2⟩

/-- The time axis. -/
def time : Axis := ⟨TraceRow.time1, TraceRow.time2⟩

/-- The points of a class. -/
def interval (axis : Axis) (row : TraceRow) : ℕ × ℕ := (axis.first row, axis.last row)

/-- `MIN` of the first points. -/
def minFirst (axis : Axis) (rows : List TraceRow) : ℕ := (rows.map axis.first).min?.getD 0

/-- `MAX` of the last points. -/
def maxLast (axis : Axis) (rows : List TraceRow) : ℕ := (rows.map axis.last).max?.getD 0

end Axis

/-! ## The queries -/

/-- The rows of an address. -/
def rowsOf (rows : List TraceRow) (a : ℕ) : List TraceRow := rows.filter fun row => row.dataAddress = a

/-- `GROUP BY data_address`: the addresses that have rows. -/
def dataAddresses (rows : List TraceRow) : List ℕ := (rows.map TraceRow.dataAddress).dedup

/-- The condition of the self-join `trace t1 JOIN trace t2`. -/
def overlapJoins (axis : Axis) (t1 t2 : ℕ × TraceRow) : Bool :=
  decide (t1.1 = t2.1 ∧ t1.2.dataAddress = t2.2.dataAddress ∧
    -- the second comparison is one of `t2` with itself
    (axis.first t1.2 ≠ axis.first t2.2 ∨ axis.last t2.2 ≠ axis.last t2.2) ∧
    ((axis.first t2.2 ≤ axis.first t1.2 ∧ axis.first t1.2 ≤ axis.last t2.2) ∨
      (axis.first t2.2 ≤ axis.last t1.2 ∧ axis.last t1.2 ≤ axis.last t2.2) ∨
      (axis.first t1.2 < axis.first t2.2 ∧ axis.last t2.2 < axis.last t1.2)))

/-- "EC overlaps": the `variant_id` of every pair of rows the self-join finds. -/
def overlapQuery (axis : Axis) (variants : List ℕ) (table : TraceTable) (variantId : ℕ) : List ℕ :=
  (table.filter fun t1 => t1.1 = variantId).flatMap fun t1 =>
    (variants.filter fun id => id = t1.1).flatMap fun _ =>
      (table.filter (overlapJoins axis t1)).map fun _ => t1.1

/-- The column `diff` of an address: the total width of the variant less the widths of its classes. -/
def rowSumDiff (axis : Axis) (rows : List TraceRow) (a : ℕ) : ℤ :=
  ((axis.maxLast rows : ℤ) - axis.minFirst rows + 1) -
    ((rowsOf rows a).map fun row => (axis.last row : ℤ) - axis.first row + 1).sum

/-- "FS row sum = total width": the addresses whose `diff` is not zero. -/
def rowSumQuery (axis : Axis) (table : TraceTable) (variantId : ℕ) : List (ℕ × ℕ × ℤ) :=
  let rows := table.ofVariant variantId
  ((dataAddresses rows).filter fun a => rowSumDiff axis rows a ≠ 0).map fun a =>
    (variantId, a, rowSumDiff axis rows a)

/-- "Global min/max = FS row local min/max": the addresses whose extremes are not those of the variant. -/
def rectangularQuery (axis : Axis) (table : TraceTable) (variantId : ℕ) : List (ℕ × (ℕ × ℕ) × ℕ × ℕ) :=
  let rows := table.ofVariant variantId
  ((dataAddresses rows).filter fun a =>
      axis.minFirst (rowsOf rows a) ≠ axis.minFirst rows ∨ axis.maxLast (rowsOf rows a) ≠ axis.maxLast rows).map
    fun a => (a, (axis.minFirst rows, axis.maxLast rows),
      axis.minFirst (rowsOf rows a), axis.maxLast (rowsOf rows a))

/-- `sanitycheck(check_name, fail_msg, sql)`, on the rows the query returns. -/
def sanitycheck {α : Type*} (res : List α) : Bool := decide (res.length = 0)

/-- **The sanity checks** of `copy_to_database`: `all_ok`. -/
def sanityChecks (variants : List ℕ) (table : TraceTable) (variantId : ℕ) : Bool :=
  sanitycheck (overlapQuery .instr variants table variantId) &&
  sanitycheck (overlapQuery .time variants table variantId) &&
  sanitycheck (rowSumQuery .instr table variantId) &&
  sanitycheck (rowSumQuery .time table variantId) &&
  sanitycheck (rectangularQuery .instr table variantId) &&
  sanitycheck (rectangularQuery .time table variantId)

/-! ## What the queries say -/

variable {axis : Axis} {variants : List ℕ} {table : TraceTable} {variantId a : ℕ} {rows : List TraceRow}
  {row row' : TraceRow}

/-- Every class has a point. -/
def Axis.Proper (axis : Axis) (rows : List TraceRow) : Prop := ∀ row ∈ rows, axis.first row ≤ axis.last row

/-- **The classes of every address are disjoint and cover the range of the variant.** -/
def Tessellated (axis : Axis) (rows : List TraceRow) : Prop :=
  ∀ a ∈ dataAddresses rows,
    PartitionOf (axis.minFirst rows) (axis.maxLast rows) ((rowsOf rows a).map axis.interval)

/-- No two classes of an address begin at the same point. -/
def DistinctStarts (axis : Axis) (rows : List TraceRow) : Prop :=
  ∀ a ∈ dataAddresses rows, ((rowsOf rows a).map axis.first).Nodup

theorem mem_rowsOf : row ∈ rowsOf rows a ↔ row ∈ rows ∧ row.dataAddress = a := by
  rw [rowsOf, List.mem_filter, decide_eq_true_eq]

theorem mem_dataAddresses : a ∈ dataAddresses rows ↔ ∃ row ∈ rows, row.dataAddress = a := by
  rw [dataAddresses, List.mem_dedup, List.mem_map]

theorem sanitycheck_eq_true {α : Type*} {res : List α} : sanitycheck res = true ↔ res = [] := by
  rw [sanitycheck, decide_eq_true_eq, List.length_eq_zero_iff]

/-- The self-join finds two overlapping classes of an address, unless they begin at the same point. -/
theorem first_eq_of_overlapQuery (hvariant : variantId ∈ variants)
    (h : overlapQuery axis variants table variantId = []) (hrow : row ∈ table.ofVariant variantId)
    (hrow' : row' ∈ table.ofVariant variantId) (ha : row.dataAddress = row'.dataAddress)
    (hoverlap : ¬ IntervalsDisjoint (axis.interval row) (axis.interval row')) :
    axis.first row = axis.first row' := by
  by_contra hne
  obtain ⟨⟨v, row⟩, hmem1, rfl⟩ := List.mem_map.mp hrow
  obtain ⟨⟨v', row'⟩, hmem2, rfl⟩ := List.mem_map.mp hrow'
  obtain ⟨ht1, hv⟩ := List.mem_filter.mp hmem1
  obtain ⟨ht2, hv'⟩ := List.mem_filter.mp hmem2
  simp only [decide_eq_true_eq] at hv hv' ha hne hoverlap
  subst hv hv'
  simp only [IntervalsDisjoint, not_forall, not_not, Contains, Axis.interval] at hoverlap
  obtain ⟨t, ⟨hfirst, hlast⟩, hfirst', hlast'⟩ := hoverlap
  have hjoin : overlapJoins axis (v', row) (v', row') = true := by
    rw [overlapJoins, decide_eq_true_eq]
    refine ⟨rfl, ha, .inl hne, ?_⟩
    simp only
    omega
  have hmem : v' ∈ overlapQuery axis variants table v' := by
    rw [overlapQuery, List.mem_flatMap]
    refine ⟨(v', row), List.mem_filter.mpr ⟨ht1, by simp⟩, List.mem_flatMap.mpr ⟨v', ?_, ?_⟩⟩
    · exact List.mem_filter.mpr ⟨hvariant, by simp⟩
    · exact List.mem_map.mpr ⟨(v', row'), List.mem_filter.mpr ⟨ht2, hjoin⟩, rfl⟩
  rw [h] at hmem
  exact List.not_mem_nil hmem

theorem sum_widths (h : axis.Proper rows) :
    (rows.map fun row => (axis.last row : ℤ) - axis.first row + 1).sum =
      ((rows.map axis.interval).map intervalLength).sum := by
  induction rows with
  | nil => rfl
  | cons row rows ih =>
    have hrow := h row List.mem_cons_self
    have hlength : (intervalLength (axis.interval row) : ℤ) = axis.last row - axis.first row + 1 := by
      simp only [intervalLength, Axis.interval]
      omega
    simp only [List.map_cons, List.sum_cons]
    rw [ih fun r hr => h r (List.mem_cons_of_mem _ hr)]
    push_cast
    rw [hlength]

theorem minFirst_le (hrow : row ∈ rows) : axis.minFirst rows ≤ axis.first row := by
  have hmem : axis.first row ∈ rows.map axis.first := List.mem_map_of_mem hrow
  cases hmin : (rows.map axis.first).min? with
  | none => exact absurd hmem (by rw [List.min?_eq_none_iff.mp hmin]; exact List.not_mem_nil)
  | some m =>
    rw [Axis.minFirst, hmin, Option.getD_some]
    exact (List.min?_eq_some_iff.mp hmin).2 _ hmem

theorem le_maxLast (hrow : row ∈ rows) : axis.last row ≤ axis.maxLast rows := by
  have hmem : axis.last row ∈ rows.map axis.last := List.mem_map_of_mem hrow
  cases hmax : (rows.map axis.last).max? with
  | none => exact absurd hmem (by rw [List.max?_eq_none_iff.mp hmax]; exact List.not_mem_nil)
  | some m =>
    rw [Axis.maxLast, hmax, Option.getD_some]
    exact (List.max?_eq_some_iff.mp hmax).2 _ hmem

/-- The row sums say that the classes of an address are as wide as the variant. -/
theorem sum_lengths_of_rowSumQuery (h : rowSumQuery axis table variantId = [])
    (hproper : axis.Proper (table.ofVariant variantId)) (ha : a ∈ dataAddresses (table.ofVariant variantId)) :
    (((rowsOf (table.ofVariant variantId) a).map axis.interval).map intervalLength).sum =
      axis.maxLast (table.ofVariant variantId) - axis.minFirst (table.ofVariant variantId) + 1 := by
  rw [rowSumQuery, List.map_eq_nil_iff, List.filter_eq_nil_iff] at h
  have hdiff : rowSumDiff axis (table.ofVariant variantId) a = 0 := by
    simpa using h a ha
  obtain ⟨row, hrow, -⟩ := mem_dataAddresses.mp ha
  have hle := (minFirst_le hrow).trans ((hproper row hrow).trans (le_maxLast hrow))
  rw [rowSumDiff, sum_widths fun r hr => hproper r (mem_rowsOf.mp hr).1] at hdiff
  omega

/-! ## Soundness -/

/-- **One axis.** If the queries of an axis return no row, the classes of every address are disjoint and
cover the range of the variant iff no two classes of an address begin at the same point. -/
theorem tessellated_iff (hvariant : variantId ∈ variants) (hproper : axis.Proper (table.ofVariant variantId))
    (hoverlap : overlapQuery axis variants table variantId = [])
    (hsum : rowSumQuery axis table variantId = []) :
    Tessellated axis (table.ofVariant variantId) ↔ DistinctStarts axis (table.ofVariant variantId) := by
  constructor
  · intro h a ha
    rw [List.nodup_iff_pairwise_ne, List.pairwise_map]
    have hdisjoint := List.pairwise_map.mp (h a ha).disjoint
    refine hdisjoint.imp_of_mem fun {row row'} hrow hrow' hd hfirst => ?_
    -- classes with the same first point share it
    refine hd (axis.first row) ⟨⟨le_rfl, hproper row (mem_rowsOf.mp hrow).1⟩, ?_⟩
    exact ⟨hfirst.ge, hfirst ▸ hproper row' (mem_rowsOf.mp hrow').1⟩
  · intro h a ha
    obtain ⟨row, hrow, -⟩ := mem_dataAddresses.mp ha
    have hle := (minFirst_le hrow).trans ((hproper row hrow).trans (le_maxLast hrow))
    refine covers_of_sum_lengths hle ?_ ?_ (sum_lengths_of_rowSumQuery hsum hproper ha)
    · rw [List.pairwise_map]
      have hnodup := List.pairwise_map.mp (List.nodup_iff_pairwise_ne.mp (h a ha))
      refine hnodup.imp_of_mem fun {row row'} hrow hrow' hne => ?_
      by_contra hd
      obtain ⟨hrow, hra⟩ := mem_rowsOf.mp hrow
      obtain ⟨hrow', hra'⟩ := mem_rowsOf.mp hrow'
      exact hne (first_eq_of_overlapQuery hvariant hoverlap hrow hrow' (hra.trans hra'.symm) hd)
    · intro iv hiv
      obtain ⟨row, hrow, rfl⟩ := List.mem_map.mp hiv
      have hrow := (mem_rowsOf.mp hrow).1
      exact ⟨minFirst_le hrow, hproper row hrow, le_maxLast hrow⟩

/-- **The sanity checks are sound iff no two classes of an address begin at the same point.** For every
table in which the rows of the variant have `instr1 ≤ instr2` and `time1 ≤ time2` and that passes all six
checks: on both axes the classes of every address are disjoint and cover exactly the range of the variant
if and only if the classes of an address have different `instr1` and different `time1`. -/
theorem checks_tessellate_iff (variants : List ℕ) (table : TraceTable) (variantId : ℕ)
    (hvariant : variantId ∈ variants) (hinstr : Axis.instr.Proper (table.ofVariant variantId))
    (htime : Axis.time.Proper (table.ofVariant variantId))
    (hchecks : sanityChecks variants table variantId = true) :
    (Tessellated .instr (table.ofVariant variantId) ∧ Tessellated .time (table.ofVariant variantId)) ↔
      DistinctStarts .instr (table.ofVariant variantId) ∧ DistinctStarts .time (table.ofVariant variantId) := by
  simp only [sanityChecks, Bool.and_eq_true, sanitycheck_eq_true] at hchecks
  obtain ⟨⟨⟨⟨⟨hoverlapInstr, hoverlapTime⟩, hsumInstr⟩, hsumTime⟩, -⟩, -⟩ := hchecks
  exact and_congr (tessellated_iff hvariant hinstr hoverlapInstr hsumInstr)
    (tessellated_iff hvariant htime hoverlapTime hsumTime)

/-- A read of a byte whose class has the given instructions, one tick each. -/
def readRow (instr1 instr2 : ℕ) : TraceRow where
  instr1 := instr1
  instr1Absolute := none
  instr2 := instr2
  instr2Absolute := none
  time1 := instr1
  time2 := instr2
  dataAddress := 100
  width := 1
  accesstype := .read
  isFake := false

/-- Two classes that lie one behind the other pass the checks and tessellate. -/
theorem checks_tessellate_iff_twoRows :
    let table : TraceTable := [(1, readRow 0 2), (1, readRow 3 3)]
    sanityChecks [1] table 1 = true ∧ Tessellated .instr (table.ofVariant 1) ∧
      Tessellated .time (table.ofVariant 1) := by
  intro table
  have hchecks : sanityChecks [1] table 1 = true := by decide
  have hinstr : Axis.instr.Proper (table.ofVariant 1) := by unfold Axis.Proper; decide
  have htime : Axis.time.Proper (table.ofVariant 1) := by unfold Axis.Proper; decide
  refine ⟨hchecks, (checks_tessellate_iff [1] table 1 (by decide) hinstr htime hchecks).mpr ⟨?_, ?_⟩⟩
  · unfold DistinctStarts
    decide
  · unfold DistinctStarts
    decide

/-- **An overlap and a gap pass all checks**: the classes `[0, 0]` and `[0, 1]` begin at the same
instruction, and nothing covers instruction 2 in front of the class `[3, 3]`. -/
theorem overlap_and_gap_pass_checks :
    let table : TraceTable := [(1, readRow 0 0), (1, readRow 0 1), (1, readRow 3 3)]
    ((table.ofVariant 1).map fun row => (row.dataAddress, row.instr2)).Nodup ∧
      Axis.instr.Proper (table.ofVariant 1) ∧ Axis.time.Proper (table.ofVariant 1) ∧
      sanityChecks [1] table 1 = true ∧
      ¬ Tessellated .instr (table.ofVariant 1) ∧ ¬ Tessellated .time (table.ofVariant 1) := by
  intro table
  have hnot : ∀ axis : Axis, (rowsOf (table.ofVariant 1) 100).map axis.interval = [(0, 0), (0, 1), (3, 3)] →
      axis.minFirst (table.ofVariant 1) = 0 → axis.maxLast (table.ofVariant 1) = 3 →
      ¬ Tessellated axis (table.ofVariant 1) := by
    intro axis hrows hmin hmax h
    have hpartition := h 100 (by decide)
    rw [hrows, hmin, hmax] at hpartition
    obtain ⟨iv, hiv, hc⟩ := (hpartition.covers 2).mpr (by decide)
    revert iv
    unfold Contains
    decide
  refine ⟨by decide, by unfold Axis.Proper; decide, by unfold Axis.Proper; decide, by decide, ?_, ?_⟩
  · exact hnot .instr (by decide) (by decide) (by decide)
  · exact hnot .time (by decide) (by decide) (by decide)

end FailStar.ImportTrace
