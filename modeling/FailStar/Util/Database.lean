import Mathlib.Tactic

/-! # Batched insertion

`Database::insert_multiple` caches value tuples, and combines them into one INSERT statement when there are
enough of them. A statement is also sent when another INSERT is wanted, and when the cache is flushed. The
database may reject any statement.

* **`Database`** — the cache, and the statements sent so far with the answers to them.
* **`Database.insertMultiple`**, **`Database.flush`** — the two uses of `insert_multiple`.
* **`replay`** — the database behind a sequence of insertions; **`statements`** — all statements, when the cache
  is flushed at the end.
* **`answers_iff`** — the answers the callers get are those to the full batches; **`values_statements`** — every
  tuple is part of a statement.
* **`FillsBatches`** — the tuples for which there are only full batches. -/

namespace FailStar

/-- Why a statement is sent: the batch is full, the query text changes, or the cache is flushed. -/
inductive Occasion
  | batchFull
  | textChanged
  | flush
  deriving DecidableEq, Repr

/-- An INSERT statement that has been sent, with the answer. -/
structure Statement (Q V : Type*) where
  insertquery : Q
  values : List V
  occasion : Occasion
  accepted : Bool
  deriving DecidableEq, Repr

/-- The statement was sent because a batch was full, by the insertion of a tuple that has the property `p`. -/
def Statement.FullBy {Q V : Type*} (p : V → Bool) (s : Statement Q V) : Prop :=
  s.occasion = .batchFull ∧ s.values.getLast?.any p = true

/-- `Database`. -/
structure Database (Q V : Type*) where
  /-- `m_insertquery`. -/
  insertquery : Option Q := none
  /-- `m_insertquery_values`. -/
  insertqueryValues : List V := []
  /-- The statements that have been sent. -/
  sent : List (Statement Q V) := []

namespace Database

variable {Q V : Type*} (accepts : ℕ → List V → Bool)

/-- `query(sql)`, with all cached values, which are cleared. `accepts` tells which statements the database
accepts: their numbers, and their values. -/
def query (db : Database Q V) (insertquery : Q) (occasion : Occasion) : Database Q V × Bool :=
  let accepted := accepts db.sent.length db.insertqueryValues
  ({ db with
      insertqueryValues := []
      sent := db.sent ++ [{ insertquery, values := db.insertqueryValues, occasion, accepted }] }, accepted)

/-- `insert_multiple()`. -/
def flush (db : Database Q V) (occasion : Occasion) : Database Q V × Bool :=
  match db.insertquery with
  -- don't know how to INSERT
  | none => (db, false)
  | some insertquery => if db.insertqueryValues = [] then (db, true) else db.query accepts insertquery occasion

/-- `insert_multiple(insertquery, values)`. -/
def insertMultiple [DecidableEq Q] (db : Database Q V) (insertquery : Q) (values : V) : Database Q V × Bool :=
  -- different insertquery, but still cached values?
  let db :=
    if db.insertquery ≠ some insertquery ∧
      db.insertqueryValues ≠ [] then (db.flush accepts .textChanged).1 else db
  let db := { db with insertquery := some insertquery, insertqueryValues := db.insertqueryValues ++ [values] }
  if 2048 ≤ db.insertqueryValues.length then db.query accepts insertquery .batchFull else (db, true)

/-! ## One insertion -/

/-- A statement is sent for the given reason, if any is. -/
theorem sent_flush (db : Database Q V) (occasion : Occasion) :
    ∃ new, (db.flush accepts occasion).1.sent = db.sent ++ new ∧ ∀ s ∈ new, s.occasion = occasion := by
  unfold flush
  split
  · exact ⟨[], (List.append_nil _).symm, by simp⟩
  · split
    · exact ⟨[], (List.append_nil _).symm, by simp⟩
    · exact ⟨_, rfl, by simp⟩

/-- Statements that are sent for another reason do not count. -/
theorem forall_fullBy_append (sent : List (Statement Q V)) {new : List (Statement Q V)} {occasion : Occasion}
    (hnew : ∀ s ∈ new, s.occasion = occasion) (hne : occasion ≠ .batchFull) (p : V → Bool) :
    (∀ s ∈ sent ++ new, s.FullBy p → s.accepted = true) ↔ ∀ s ∈ sent, s.FullBy p → s.accepted = true := by
  rw [List.forall_mem_append]
  exact and_iff_left fun s hs hby => absurd ((hnew s hs).symm.trans hby.1) hne

/-- The tuple is cached. -/
def cache (db : Database Q V) (q : Q) (v : V) : Database Q V :=
  { db with insertquery := some q, insertqueryValues := db.insertqueryValues ++ [v] }

variable [DecidableEq Q]

/-- The cached tuples are sent if they have another query text. -/
def changeText (db : Database Q V) (q : Q) : Database Q V :=
  if db.insertquery ≠ some q ∧ db.insertqueryValues ≠ [] then (db.flush accepts .textChanged).1 else db

theorem insertMultiple_eq (db : Database Q V) (q : Q) (v : V) :
    db.insertMultiple accepts q v =
      if 2048 ≤ ((db.changeText accepts q).insertqueryValues ++ [v]).length then
        ((db.changeText accepts q).cache q v).query accepts q .batchFull
      else ((db.changeText accepts q).cache q v, true) :=
  rfl

theorem sent_changeText (db : Database Q V) (q : Q) :
    ∃ new, (db.changeText accepts q).sent = db.sent ++ new ∧ ∀ s ∈ new, s.occasion = .textChanged := by
  unfold changeText
  split
  · exact sent_flush accepts db .textChanged
  · exact ⟨[], (List.append_nil _).symm, by simp⟩

/-- The answer to an insertion is the answer to the full batch it completes. -/
theorem answer_insertMultiple_iff (db : Database Q V) (q : Q) (v : V) (p : V → Bool) :
    (∀ s ∈ (db.insertMultiple accepts q v).1.sent, s.FullBy p → s.accepted = true) ↔
      (∀ s ∈ db.sent, s.FullBy p → s.accepted = true) ∧
        (p v = true → (db.insertMultiple accepts q v).2 = true) := by
  obtain ⟨new, hsent, hnew⟩ := sent_changeText accepts db q
  have hchanged := forall_fullBy_append db.sent hnew (by decide) p
  rw [← hsent] at hchanged
  rw [insertMultiple_eq, ← hchanged]
  split
  · simp [query, cache, Statement.FullBy, or_imp, forall_and]
  · simp [cache]

/-! ## A sequence of insertions -/

section Replay

variable (text : V → Q)

/-- The database behind a sequence of insertions. -/
def replay (values : List V) : Database Q V :=
  values.foldl (fun db v => (db.insertMultiple accepts (text v) v).1) {}

/-- The answer to an insertion, behind a sequence of insertions. -/
def answer (values : List V) (v : V) : Bool := ((replay accepts text values).insertMultiple accepts (text v) v).2

/-- **All statements**, when the cache is flushed at the end. -/
def statements (values : List V) : List (Statement Q V) :=
  ((replay accepts text values).flush accepts .flush).1.sent

theorem replay_concat (values : List V) (v : V) :
    replay accepts text (values ++ [v]) = ((replay accepts text values).insertMultiple accepts (text v) v).1 :=
  List.foldl_concat ..

theorem answers_replay_iff (p : V → Bool) (values : List V) :
    (∀ s ∈ (replay accepts text values).sent, s.FullBy p → s.accepted = true) ↔
      ∀ front v, front ++ [v] <+: values → p v = true → answer accepts text front v = true := by
  induction values using List.reverseRecOn with
  | nil =>
    refine iff_of_true (by simp [replay]) fun front v h => ?_
    exact absurd (List.prefix_nil.mp h) (by simp)
  | append_singleton values v ih =>
    rw [replay_concat, answer_insertMultiple_iff, ih]
    constructor
    · rintro ⟨hfront, hlast⟩ front v' h hp
      obtain h | h := List.prefix_concat_iff.mp h
      · obtain ⟨rfl, hv⟩ := List.append_inj' h rfl
        obtain rfl := List.singleton_inj.mp hv
        exact hlast hp
      · exact hfront front v' h hp
    · intro h
      exact ⟨fun front v' hv' hp => h front v' (hv'.trans (List.prefix_append _ _)) hp,
        fun hp => h values v List.prefix_rfl hp⟩

/-- **The callers see the answers to full batches, and no other ones.** -/
theorem answers_iff (p : V → Bool) (values : List V) :
    (∀ s ∈ statements accepts text values, s.FullBy p → s.accepted = true) ↔
      ∀ front v, front ++ [v] <+: values → p v = true → answer accepts text front v = true := by
  -- the last statement is not a full batch
  obtain ⟨new, hsent, hnew⟩ := sent_flush accepts (replay accepts text values) .flush
  rw [statements, hsent, forall_fullBy_append _ hnew (by decide), answers_replay_iff]

variable {accepts} in
/-- A database that accepts all full batches gives no negative answer. -/
theorem answer_of_full (haccepts : ∀ i values, 2048 ≤ values.length → accepts i values = true)
    (values : List V) (v : V) :
    answer accepts text values v = true := by
  rw [answer, insertMultiple_eq]
  split
  · exact haccepts _ _ ‹_›
  · rfl

/-! ## Batches -/

/-- **The invariant of batches**: they carry all tuples, in order; none has too many tuples; each has the query
text of its tuples, and an answer of the database. -/
structure Batched (db : Database Q V) (values : List V) : Prop where
  carried : db.sent.flatMap (fun s => s.values) ++ db.insertqueryValues = values
  sent : ∀ s ∈ db.sent, s.values.length ≤ 2048 ∧ (∀ v ∈ s.values, text v = s.insertquery) ∧
    ∃ i, s.accepted = accepts i s.values
  length : db.insertqueryValues.length ≤ 2048
  cached : ∀ v ∈ db.insertqueryValues, db.insertquery = some (text v)

variable {accepts text} {db : Database Q V} {values : List V}

omit [DecidableEq Q] in
/-- The cached tuples are sent. -/
theorem Batched.query (h : db.Batched accepts text values) {q : Q} (hquery : db.insertquery = some q)
    (occasion : Occasion) : (db.query accepts q occasion).1.Batched accepts text values where
  carried := by
    rw [← h.carried]
    simp [Database.query]
  sent := by
    refine List.forall_mem_append.mpr ⟨h.sent, List.forall_mem_singleton.mpr ⟨h.length, fun v hv => ?_, _, rfl⟩⟩
    exact Option.some.inj ((h.cached v hv).symm.trans hquery)
  length := Nat.zero_le _
  cached _ hv := absurd hv List.not_mem_nil

omit [DecidableEq Q] in
theorem Batched.flush (h : db.Batched accepts text values) (occasion : Occasion) :
    (db.flush accepts occasion).1.Batched accepts text values ∧
      (db.flush accepts occasion).1.insertqueryValues = [] := by
  unfold Database.flush
  split
  · rename_i hnone
    exact ⟨h, List.eq_nil_iff_forall_not_mem.mpr fun v hv => absurd (hnone.symm.trans (h.cached v hv)) (by simp)⟩
  · rename_i q hquery
    split
    · exact ⟨h, ‹_›⟩
    · exact ⟨h.query hquery occasion, rfl⟩

theorem Batched.changeText_of_same (h : db.Batched accepts text values) {q : Q}
    (hsame : ∀ v ∈ db.insertqueryValues, text v = q) : db.changeText accepts q = db := by
  refine if_neg fun hchanged => hchanged.1 ?_
  have hmem := List.head_mem hchanged.2
  rw [h.cached _ hmem, hsame _ hmem]

theorem Batched.changeText (h : db.Batched accepts text values) (q : Q) :
    (db.changeText accepts q).Batched accepts text values ∧
      ∀ v ∈ (db.changeText accepts q).insertqueryValues, text v = q := by
  unfold Database.changeText
  split
  · obtain ⟨h', hempty⟩ := h.flush .textChanged
    exact ⟨h', by simp [hempty]⟩
  · rename_i hsame
    refine ⟨h, fun v hv => ?_⟩
    have hquery := not_not.mp (not_and.mp (mt And.symm hsame) (List.ne_nil_of_mem hv))
    exact Option.some.inj ((h.cached v hv).symm.trans hquery)

theorem Batched.insertMultiple (h : db.Batched accepts text values)
    (hlength : db.insertqueryValues.length < 2048) (v : V) :
    (db.insertMultiple accepts (text v) v).1.Batched accepts text (values ++ [v]) ∧
      (db.insertMultiple accepts (text v) v).1.insertqueryValues.length < 2048 := by
  obtain ⟨h', hsame⟩ := h.changeText (text v)
  have hlength' : (db.changeText accepts (text v)).insertqueryValues.length < 2048 := by
    unfold Database.changeText
    split
    · rw [(h.flush .textChanged).2]
      exact Nat.two_pow_pos 11
    · exact hlength
  have hcache : ((db.changeText accepts (text v)).cache (text v) v).Batched accepts text (values ++ [v]) := by
    refine ⟨?_, h'.sent, ?_, fun v' hv' => congrArg some ?_⟩
    · rw [← h'.carried]
      exact (List.append_assoc ..).symm
    · exact List.length_append.trans_le hlength'
    · exact (List.forall_mem_append.mpr ⟨hsame, List.forall_mem_singleton.mpr rfl⟩ v' hv').symm
  rw [insertMultiple_eq]
  split
  · exact ⟨hcache.query rfl .batchFull, Nat.two_pow_pos 11⟩
  · exact ⟨hcache, Nat.not_le.mp ‹_›⟩

variable (accepts text)

theorem batched_replay (values : List V) :
    (replay accepts text values).Batched accepts text values ∧
      (replay accepts text values).insertqueryValues.length < 2048 := by
  induction values using List.reverseRecOn with
  | nil => exact ⟨⟨rfl, by simp [replay], Nat.zero_le _, by simp [replay]⟩, Nat.two_pow_pos 11⟩
  | append_singleton values v ih =>
    rw [replay_concat]
    exact ih.1.insertMultiple ih.2 v

theorem batched_statements (values : List V) : ∀ s ∈ statements accepts text values,
    s.values.length ≤ 2048 ∧ (∀ v ∈ s.values, text v = s.insertquery) ∧ ∃ i, s.accepted = accepts i s.values :=
  ((batched_replay accepts text values).1.flush .flush).1.sent

/-- **Every tuple is part of a statement**, in order. -/
theorem values_statements (values : List V) :
    (statements accepts text values).flatMap (fun s => s.values) = values := by
  obtain ⟨h, hempty⟩ := (batched_replay accepts text values).1.flush .flush
  have hcarried := h.carried
  rwa [hempty, List.append_nil] at hcarried

variable {accepts} in
/-- If everything is accepted, all tuples are stored. -/
theorem stored_statements (haccepts : ∀ i values, accepts i values = true) (values : List V) :
    ((statements accepts text values).filter fun s => s.accepted).flatMap (fun s => s.values) = values := by
  have hall : ∀ s ∈ statements accepts text values, s.accepted = true := by
    intro s hs
    obtain ⟨-, -, i, hanswer⟩ := batched_statements accepts text values s hs
    rw [hanswer, haccepts]
  rw [List.filter_eq_self.mpr hall, values_statements]

/-! ## Full batches -/

/-- The tuples fill whole batches, each with one query text. -/
def FillsBatches (values : List V) : Prop :=
  ∃ batches : List (List V), batches.flatten = values ∧ ∀ b ∈ batches, b.length = 2048 ∧ ∃ q, ∀ v ∈ b, text v = q

variable {accepts text}

/-- If no statement is too small, the tuples fill whole batches. -/
theorem fillsBatches_of_length (h : ∀ s ∈ statements accepts text values, 2048 ≤ s.values.length) :
    FillsBatches text values := by
  refine ⟨(statements accepts text values).map Statement.values, ?_, List.forall_mem_map.mpr fun s hs => ?_⟩
  · rw [← List.flatMap_def, values_statements]
  · obtain ⟨hlength, htext, -⟩ := batched_statements accepts text values s hs
    exact ⟨le_antisymm hlength (h s hs), s.insertquery, htext⟩

/-- A tuple with the query text of the cached ones. -/
theorem replay_same {front b : List V} {v : V} (hcached : (replay accepts text front).insertqueryValues = b)
    (hsame : ∀ v' ∈ b, text v' = text v) :
    replay accepts text (front ++ [v]) =
      (if 2048 ≤ (b ++ [v]).length then ((replay accepts text front).cache (text v) v).query accepts
        (text v) .batchFull
        else ((replay accepts text front).cache (text v) v, true)).1 := by
  rw [replay_concat, insertMultiple_eq,
    (batched_replay accepts text front).1.changeText_of_same (hcached ▸ hsame), hcached]

/-- The tuples of a batch, before it is full. -/
theorem replay_partial {front b : List V} (hempty : (replay accepts text front).insertqueryValues = []) {q : Q}
    (htext : ∀ v ∈ b, text v = q) (hlength : b.length < 2048) :
    (replay accepts text (front ++ b)).sent = (replay accepts text front).sent ∧
      (replay accepts text (front ++ b)).insertqueryValues = b := by
  induction b using List.reverseRecOn with
  | nil => exact (List.append_nil front).symm ▸ ⟨rfl, hempty⟩
  | append_singleton b v ih =>
    obtain ⟨hb, hv⟩ := List.forall_mem_append.mp htext
    have hroom := hlength
    rw [List.length_append, List.length_singleton] at hlength
    obtain ⟨hsent, hcached⟩ := ih hb (by omega)
    rw [← List.append_assoc, replay_same hcached (by simpa [hv] using hb), if_neg hroom.not_ge]
    exact ⟨hsent, congrArg (· ++ [v]) hcached⟩

variable (accepts) in
/-- If the tuples fill whole batches, only full batches are sent. -/
theorem replay_batches {batches : List (List V)}
    (hbatches : ∀ b ∈ batches, b.length = 2048 ∧ ∃ q, ∀ v ∈ b, text v = q) :
    (replay accepts text batches.flatten).insertqueryValues = [] ∧
      ∀ s ∈ (replay accepts text batches.flatten).sent, s.FullBy fun _ => true := by
  induction batches using List.reverseRecOn with
  | nil => exact ⟨rfl, by simp [replay]⟩
  | append_singleton batches b ih =>
    obtain ⟨hfront, hb⟩ := List.forall_mem_append.mp hbatches
    obtain ⟨hempty, hsent⟩ := ih hfront
    obtain ⟨hlength, q, htext⟩ := List.forall_mem_singleton.mp hb
    rw [List.flatten_append, List.flatten_singleton]
    -- the last tuple sends the batch
    obtain rfl | ⟨b, v, rfl⟩ := List.eq_nil_or_concat' b
    · cases hlength
    · obtain ⟨hb, hv⟩ := List.forall_mem_append.mp htext
      have hfull := hlength.ge
      rw [List.length_append, List.length_singleton] at hlength
      obtain ⟨hsent', hcached⟩ := replay_partial hempty hb (by omega)
      rw [← List.append_assoc, replay_same hcached (by simpa [hv] using hb), if_pos hfull]
      refine ⟨rfl, List.forall_mem_append.mpr ⟨hsent' ▸ hsent, List.forall_mem_singleton.mpr ⟨rfl, ?_⟩⟩⟩
      exact congrArg (Option.any _) List.getLast?_concat

theorem fullBy_of_fillsBatches (h : FillsBatches text values) :
    ∀ s ∈ statements accepts text values, s.FullBy fun _ => true := by
  obtain ⟨batches, rfl, hbatches⟩ := h
  obtain ⟨hempty, hsent⟩ := replay_batches accepts hbatches
  rw [statements, flush]
  split
  · exact hsent
  · rw [if_pos hempty]
    exact hsent

end Replay

end Database

end FailStar
