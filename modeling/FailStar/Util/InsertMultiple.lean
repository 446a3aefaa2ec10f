import FailStar.Util.Database

/-! # The texts of batched insertion

`Database::insert_multiple` keeps the text of the INSERT it caches tuples for in a string, and takes an empty
string for no text at all. It calls itself to send what is cached when the text changes.

* **`InsertCache`** — the two members, and the statements that have been executed. All statements succeed.
* **`InsertCache.insertMultiple`** — the function, with both arguments optional; **`InsertCache.flush`** —
  without any.
* **`InsertCache.Holds`** — the invariant: what was executed and what is cached are the tuples that were
  submitted, each with its text.
* **`InsertCache.batches_faithful`** — after the last flush every tuple has been executed, once, in order and
  with its text, if no text is empty. An empty one loses its tuple (`empty_text_loses_tuple`).
* **`InsertCache.abstracts_run`** — with texts that are not empty, the cache behaves as `Database`. -/

namespace FailStar

/-- An INSERT statement: the text, and the tuples that are appended to it. -/
structure Batch where
  insertquery : List Char
  values : List (List Char)
  deriving DecidableEq, Repr

/-- The tuples of a statement, with its text. -/
def Batch.pairs (b : Batch) : List (List Char × List Char) := b.values.map fun v => (b.insertquery, v)

/-- The members of `Database` that `insert_multiple` uses. -/
structure InsertCache where
  /-- `m_insertquery`. -/
  insertquery : List Char := []
  /-- `m_insertquery_values`. -/
  insertqueryValues : List (List Char) := []
  /-- The statements that have been executed. -/
  executed : List Batch := []
  deriving DecidableEq, Repr

namespace InsertCache

/-! ## insert_multiple -/

/-- `query(sql)`, with all cached values, which are cleared. -/
def query (db : InsertCache) : InsertCache :=
  { db with
    insertqueryValues := []
    executed := db.executed ++ [⟨db.insertquery, db.insertqueryValues⟩] }

/-- The part of `insert_multiple` behind its first test. -/
def cache (db : InsertCache) (insertquery values : Option (List Char)) : InsertCache :=
  let db := { db with
    insertquery := insertquery.getD db.insertquery
    insertqueryValues := db.insertqueryValues ++ values.toList }
  if values = none ∧ 0 < db.insertqueryValues.length ∨ 2048 ≤ db.insertqueryValues.length then db.query else db

/-- `insert_multiple()`. -/
def flush (db : InsertCache) : InsertCache × Bool :=
  -- don't know how to INSERT
  if db.insertquery.length = 0 then (db, false) else (db.cache none none, true)

/-- **`insert_multiple(insertquery, values)`**, where `none` stands for `NULL`. -/
def insertMultiple (db : InsertCache) (insertquery values : Option (List Char)) : InsertCache × Bool :=
  match insertquery with
  | some text =>
    -- different insertquery, but still cached values?
    if db.insertquery ≠ text ∧ 0 < db.insertqueryValues.length then (db.flush.1.cache insertquery values, true)
    else (db.cache insertquery values, true)
  | none => if db.insertquery.length = 0 then (db, false) else (db.cache none values, true)

/-- Without arguments, the function is what it calls itself. -/
theorem insertMultiple_none (db : InsertCache) : db.insertMultiple none none = db.flush := rfl

/-- A call of `insert_multiple`. -/
inductive Call
  | insert (insertquery values : List Char)
  | flush
  deriving DecidableEq, Repr

/-- The arguments of a call. -/
def call (db : InsertCache) : Call → InsertCache
  | .insert insertquery values => (db.insertMultiple (some insertquery) (some values)).1
  | .flush => (db.insertMultiple none none).1

/-- The cache behind some calls. -/
def run (calls : List Call) : InsertCache := calls.foldl call {}

/-- **All statements**, when the destructor of `Database` flushes the cache in the end. -/
def statements (calls : List Call) : List Batch := ((run calls).insertMultiple none none).1.executed

/-- The tuples that are submitted, with their texts. -/
def submitted (calls : List Call) : List (List Char × List Char) :=
  calls.flatMap fun
    | .insert insertquery values => [(insertquery, values)]
    | .flush => []

/-! ## Nothing is lost -/

/-- **The invariant**: the tuples that were executed, and behind them the cached ones, are the submitted ones. -/
structure Holds (db : InsertCache) (pairs : List (List Char × List Char)) : Prop where
  pairs : db.executed.flatMap Batch.pairs ++ Batch.pairs ⟨db.insertquery, db.insertqueryValues⟩ = pairs
  sizes : ∀ b ∈ db.executed, 0 < b.values.length ∧ b.values.length ≤ 2048
  cached : db.insertqueryValues.length < 2048
  text : db.insertqueryValues ≠ [] → db.insertquery ≠ []

variable {db : InsertCache} {pairs : List (List Char × List Char)}

theorem holds_init : Holds {} [] where
  pairs := rfl
  sizes b hb := absurd hb List.not_mem_nil
  cached := by decide
  text h := absurd rfl h

theorem Holds.query
    (hpairs : db.executed.flatMap Batch.pairs ++ Batch.pairs ⟨db.insertquery, db.insertqueryValues⟩ = pairs)
    (hsizes : ∀ b ∈ db.executed, 0 < b.values.length ∧ b.values.length ≤ 2048)
    (hpos : 0 < db.insertqueryValues.length) (hle : db.insertqueryValues.length ≤ 2048) :
    db.query.Holds pairs where
  pairs := by
    rw [InsertCache.query, List.flatMap_append, List.flatMap_singleton]
    exact (List.append_nil _).trans hpairs
  sizes := List.forall_mem_append.mpr ⟨hsizes, List.forall_mem_singleton.mpr ⟨hpos, hle⟩⟩
  cached := Nat.two_pow_pos 11
  text h := absurd rfl h

/-- **A flush** executes everything that is cached. -/
theorem Holds.flush (h : db.Holds pairs) : db.flush.1.Holds pairs ∧ db.flush.1.insertqueryValues = [] := by
  rw [InsertCache.flush]
  split
  · -- without a text there is nothing to flush
    rename_i hempty
    refine ⟨h, ?_⟩
    by_contra hne
    exact h.text hne (List.length_eq_zero_iff.mp hempty)
  · simp only [cache, Option.getD_none, Option.toList_none, List.append_nil, true_and]
    split
    · rename_i hfull
      have hpos : 0 < db.insertqueryValues.length := hfull.elim id (Nat.lt_of_lt_of_le (by decide))
      exact ⟨.query h.pairs h.sizes hpos h.cached.le, rfl⟩
    · rename_i hnone
      exact ⟨h, List.length_eq_zero_iff.mp (Nat.eq_zero_of_not_pos fun hpos => hnone (Or.inl hpos))⟩

/-- Another tuple for the text that is cached, or for a new one if nothing is cached. -/
theorem Holds.cache (h : db.Holds pairs) {text values : List Char} (htext : text ≠ [])
    (hsame : db.insertqueryValues ≠ [] → db.insertquery = text) :
    (db.cache (some text) (some values)).Holds (pairs ++ [(text, values)]) := by
  have hcached : Batch.pairs ⟨db.insertquery, db.insertqueryValues⟩ =
      Batch.pairs ⟨text, db.insertqueryValues⟩ := by
    by_cases hnil : db.insertqueryValues = []
    · rw [hnil]
      rfl
    · rw [hsame hnil]
  have hpairs : db.executed.flatMap Batch.pairs ++ Batch.pairs ⟨text, db.insertqueryValues ++ [values]⟩ =
      pairs ++ [(text, values)] := by
    rw [← h.pairs, hcached, List.append_assoc]
    simp [Batch.pairs]
  have hlength : (db.insertqueryValues ++ [values]).length = db.insertqueryValues.length + 1 := by simp
  have hlt := h.cached
  simp only [InsertCache.cache, Option.getD_some, Option.toList_some, reduceCtorEq, false_and, false_or]
  split
  · exact .query hpairs h.sizes (by rw [hlength]; omega) (by rw [hlength]; omega)
  · rename_i hroom
    exact ⟨hpairs, h.sizes, Nat.not_le.mp hroom, fun _ => htext⟩

/-- **A submission** adds its tuple, under its own text. -/
theorem Holds.insert (h : db.Holds pairs) {text values : List Char} (htext : text ≠ []) :
    (db.insertMultiple (some text) (some values)).1.Holds (pairs ++ [(text, values)]) := by
  rw [insertMultiple]
  split
  · obtain ⟨hflushed, hnil⟩ := h.flush
    exact hflushed.cache htext fun hne => absurd hnil hne
  · rename_i hsame
    refine h.cache htext fun hne => ?_
    by_contra hother
    exact hsame ⟨hother, List.length_pos_iff.mpr hne⟩

/-- No submission has an empty text. -/
def HaveTexts (calls : List Call) : Prop := ∀ p ∈ submitted calls, p.1 ≠ []

instance (calls : List Call) : Decidable (HaveTexts calls) := inferInstanceAs (Decidable (∀ p ∈ _, _))

theorem submitted_append (calls calls' : List Call) :
    submitted (calls ++ calls') = submitted calls ++ submitted calls' :=
  List.flatMap_append

/-- **The invariant of a run.** -/
theorem holds_run {calls : List Call} (h : HaveTexts calls) : (run calls).Holds (submitted calls) := by
  induction calls using List.reverseRecOn with
  | nil => exact holds_init
  | append_singleton calls c ih =>
    rw [HaveTexts, submitted_append] at h
    obtain ⟨hcalls, hc⟩ := List.forall_mem_append.mp h
    have hrun : run (calls ++ [c]) = (run calls).call c := List.foldl_concat ..
    rw [hrun, submitted_append]
    cases c with
    | insert text values => exact (ih hcalls).insert (hc (text, values) (List.mem_singleton_self _))
    | flush =>
      rw [show submitted [.flush] = [] from rfl, List.append_nil, call, insertMultiple_none]
      exact (ih hcalls).flush.1

/-- **Batched insertion loses and reorders nothing.** For every sequence of submissions and flushes without an
empty text, once the cache has been flushed or destroyed, the executed statements carry every submitted tuple
once, under the text it was submitted with and in order; and each of them carries between 1 and 2048 tuples. -/
theorem batches_faithful (calls : List Call) (h : HaveTexts calls) :
    (statements calls).flatMap Batch.pairs = submitted calls ∧
      ∀ b ∈ statements calls, 0 < b.values.length ∧ b.values.length ≤ 2048 := by
  obtain ⟨hflushed, hnil⟩ := (holds_run h).flush
  refine ⟨?_, hflushed.sizes⟩
  have hpairs := hflushed.pairs
  rw [hnil] at hpairs
  exact (List.append_nil _).symm.trans hpairs

/-- Three submissions with two texts, and a flush. -/
theorem batches_faithful_alternating :
    let calls : List Call := [.insert ['A'] ['1'], .insert ['B'] ['2'], .flush, .insert ['A'] ['3']]
    (statements calls).flatMap Batch.pairs = [(['A'], ['1']), (['B'], ['2']), (['A'], ['3'])] ∧
      ∀ b ∈ statements calls, 0 < b.values.length ∧ b.values.length ≤ 2048 :=
  batches_faithful [.insert ['A'] ['1'], .insert ['B'] ['2'], .flush, .insert ['A'] ['3']] (by decide)

/-- An empty text counts as no text: its tuple is lost, or executed under the next text. -/
theorem empty_text_loses_tuple :
    (statements [.insert [] ['1']] = [] ∧ submitted [.insert [] ['1']] = [([], ['1'])]) ∧
      (statements [.insert [] ['1'], .insert ['A'] ['2']]).flatMap Batch.pairs =
        [(['A'], ['1']), (['A'], ['2'])] := by
  decide

/-! ## The abstract cache -/

/-- A statement of the abstract cache, without the reason for which it is sent. -/
def ofStatement (s : Statement (List Char) (List Char)) : Batch := ⟨s.insertquery, s.values⟩

/-- The cache is in the state of the abstract one. -/
structure Abstracts (db : InsertCache) (abs : Database (List Char) (List Char)) : Prop where
  insertquery : abs.insertquery = if db.insertquery = [] then none else some db.insertquery
  values : abs.insertqueryValues = db.insertqueryValues
  sent : abs.sent.map ofStatement = db.executed

variable {abs : Database (List Char) (List Char)} {accepts : ℕ → List (List Char) → Bool}

theorem Abstracts.flush (h : db.Abstracts abs) (occasion : Occasion) :
    db.flush.1.Abstracts (abs.flush accepts occasion).1 := by
  have hquery := h.insertquery
  by_cases hempty : db.insertquery = []
  · rw [if_pos hempty] at hquery
    rw [InsertCache.flush, if_pos (List.length_eq_zero_iff.mpr hempty), Database.flush, hquery]
    exact h
  · rw [if_neg hempty] at hquery
    have hlength : ¬db.insertquery.length = 0 := fun hzero => hempty (List.length_eq_zero_iff.mp hzero)
    rw [InsertCache.flush, if_neg hlength, Database.flush, hquery, h.values]
    simp only [InsertCache.cache, Option.getD_none, Option.toList_none, List.append_nil, true_and]
    by_cases hnil : db.insertqueryValues = []
    · rw [if_pos hnil, if_neg (by simp [hnil])]
      exact h
    · have hpos := List.length_pos_iff.mpr hnil
      rw [if_neg hnil, if_pos (Or.inl hpos)]
      refine ⟨?_, rfl, ?_⟩
      · rw [Database.query, InsertCache.query, if_neg hempty]
        exact hquery
      · rw [Database.query, InsertCache.query, List.map_append, h.sent, h.values]
        rfl

theorem Abstracts.cache (h : db.Abstracts abs) {text values : List Char} (htext : text ≠ []) :
    let next : Database (List Char) (List Char) :=
      { abs with insertquery := some text, insertqueryValues := abs.insertqueryValues ++ [values] }
    (db.cache (some text) (some values)).Abstracts
      (if 2048 ≤ next.insertqueryValues.length then next.query accepts text .batchFull else (next, true)).1 := by
  intro next
  have hvalues : next.insertqueryValues = db.insertqueryValues ++ [values] := congrArg (· ++ [values]) h.values
  rw [hvalues]
  simp only [InsertCache.cache, Option.getD_some, Option.toList_some, reduceCtorEq, false_and, false_or]
  split
  · refine ⟨(if_neg htext).symm, rfl, ?_⟩
    rw [Database.query, InsertCache.query, List.map_append, hvalues]
    exact congrArg (· ++ _) h.sent
  · exact ⟨(if_neg htext).symm, hvalues, h.sent⟩

theorem Abstracts.insert (h : db.Abstracts abs) {text values : List Char} (htext : text ≠ []) :
    (db.insertMultiple (some text) (some values)).1.Abstracts (abs.insertMultiple accepts text values).1 := by
  -- both look at the same text, and both look whether something is cached
  have hchanged : abs.insertquery ≠ some text ∧ abs.insertqueryValues ≠ [] ↔
      db.insertquery ≠ text ∧ 0 < db.insertqueryValues.length := by
    rw [h.values, h.insertquery, List.length_pos_iff]
    refine and_congr_left fun _ => ?_
    split
    · rename_i hempty
      exact iff_of_true (by simp) (by rw [hempty]; exact htext.symm)
    · simp
  rw [InsertCache.insertMultiple, Database.insertMultiple]
  simp only [hchanged]
  split
  · exact (h.flush .textChanged).cache htext
  · exact h.cache htext

/-- A call of the abstract cache. -/
def abstractCall (accepts : ℕ → List (List Char) → Bool) (abs : Database (List Char) (List Char)) :
    Call → Database (List Char) (List Char)
  | .insert insertquery values => (abs.insertMultiple accepts insertquery values).1
  | .flush => (abs.flush accepts .flush).1

/-- **Refinement**: as long as no text is empty, the cache goes through the states of the abstract one. -/
theorem abstracts_run {calls : List Call} (h : HaveTexts calls) :
    (run calls).Abstracts (calls.foldl (abstractCall accepts) {}) := by
  induction calls using List.reverseRecOn with
  | nil => exact ⟨rfl, rfl, rfl⟩
  | append_singleton calls c ih =>
    rw [HaveTexts, submitted_append] at h
    obtain ⟨hcalls, hc⟩ := List.forall_mem_append.mp h
    have hrun : run (calls ++ [c]) = (run calls).call c := List.foldl_concat ..
    rw [hrun, List.foldl_concat]
    cases c with
    | insert text values => exact (ih hcalls).insert (hc (text, values) (List.mem_singleton_self _))
    | flush => exact (ih hcalls).flush .flush

end InsertCache

end FailStar
