import FailStar.Sal.ListenerManager

/-! # Triggering the active listeners

`triggerActiveListeners` goes through the fire-list and toggles the experiment flow of every listener that is not
in the delete-list. The toggled flow may add and remove listeners before it gives the control back. A pending
listener is no longer in the buffer-list, so removing it means that it has to be put into the delete-list.

* **`Triggering`** — a run of `triggerActiveListeners`, with what the flows have done so far.
* **`Triggering.step`** — the iterator goes on, a flow does something, or the lists are cleared.
* **`cancels`** — an operation of a flow removes a pending listener. `removeListener(NULL)` should remove the
  ones of the calling flow only; the code puts the whole fire-list into the delete-list.
* **`removal_isolation`** — when a listener is triggered, and what isolates the flows from each other. -/

namespace FailStar

/-- What an experiment flow does while it is toggled. -/
inductive FlowOp (ℓ φ : Type*)
  | addListener (li : ℓ)
  /-- `none` is `NULL`: all listeners of the current flow. -/
  | removeListener (li : Option ℓ)
  /-- `none` is `NULL`: the listeners of all flows. -/
  | clearListeners (flow : Option φ)
  deriving DecidableEq, Repr

/-- The operation of the listener manager, if `current` is the current flow. -/
def FlowOp.toOp {ℓ φ : Type*} (current : φ) : FlowOp ℓ φ → ListenerManager.Op ℓ φ
  | .addListener li => .add li (some current)
  | .removeListener (some li) => .remove li
  | .removeListener none => .removeNull (some current)
  | .clearListeners flow => .removeFlow flow

/-- The turn of a listener of the fire-list. -/
structure Turn (ℓ : Type*) where
  listener : ℓ
  triggered : Bool
  /-- The listener was removed before, or all listeners of its flow. -/
  cancelled : Bool
  /-- Some flow called `removeListener(NULL)` before. -/
  removedNull : Bool
  deriving DecidableEq, Repr

/-- **A run of `triggerActiveListeners`.** -/
structure Triggering (ℓ φ : Type*) where
  manager : ListenerManager ℓ φ
  /-- The part of the fire-list that the iterator has not reached. -/
  pending : List ℓ
  /-- The flow that is toggled. -/
  current : Option φ
  turns : List (Turn ℓ)
  /-- The listeners that have been removed since, by themselves or with their flow. -/
  cancelled : ℓ → Bool
  /-- A flow has called `removeListener(NULL)` since. -/
  removedNull : Bool
  finished : Bool

inductive TriggerStep (ℓ φ : Type*)
  /-- The iterator goes on to the next listener of the fire-list. -/
  | next
  /-- The flow that is toggled does something. -/
  | flow (op : FlowOp ℓ φ)
  /-- The end of the fire-list: both lists are cleared. -/
  | finish
  deriving DecidableEq, Repr

section

variable {ℓ φ : Type*} [DecidableEq ℓ] [DecidableEq φ]

/-- The operation, called by flow `current`, removes the listener. -/
def cancels (m : ListenerManager ℓ φ) (current : φ) : FlowOp ℓ φ → ℓ → Bool
  | .addListener _, _ => false
  | .removeListener (some li'), li => decide (li' = li)
  | .removeListener none, li => decide (m.parent li = some current)
  | .clearListeners none, _ => true
  | .clearListeners (some flow), li => decide (m.parent li = some flow)

namespace Triggering

def start (m : ListenerManager ℓ φ) : Triggering ℓ φ where
  manager := m
  pending := m.fireList
  current := none
  turns := []
  cancelled := fun _ => false
  removedNull := false
  finished := false

/-- The turn of a listener that is pending. -/
def turn (s : Triggering ℓ φ) (li : ℓ) (triggered : Bool) : Turn ℓ :=
  ⟨li, triggered, s.cancelled li, s.removedNull⟩

/-- **One step.** `onTrigger` asserts that the listener has a parent, and toggles this flow. -/
def step (cfg : FastConfig) (type : ℓ → ListenerType) (s : Triggering ℓ φ) :
    TriggerStep ℓ φ → Option (Triggering ℓ φ)
  | .next =>
    match s.pending with
    | [] => none
    | li :: pending =>
      if li ∈ s.manager.deleteList then
        some { s with
          pending := pending
          current := none
          turns := s.turns ++ [s.turn li false] }
      else
        (s.manager.parent li).map fun flow => { s with
          manager := { s.manager with fired := some li }
          pending := pending
          current := some flow
          turns := s.turns ++ [s.turn li true] }
  | .flow op =>
    s.current.bind fun flow => (s.manager.step cfg type (op.toOp flow)).map fun manager => { s with
      manager := manager
      cancelled := fun li => s.cancelled li || cancels s.manager flow op li
      removedNull := s.removedNull || decide (op = .removeListener none) }
  | .finish =>
    match s.pending with
    | [] => some { s with
        manager := s.manager.clearFireList
        current := none
        finished := true }
    | _ :: _ => none

/-- `removeListener(NULL)` is only called when all pending listeners belong to the calling flow, or have been
removed before. -/
def Isolated (s : Triggering ℓ φ) : TriggerStep ℓ φ → Prop
  | .flow (.removeListener none) =>
    ∀ li ∈ s.pending, s.cancelled li = true ∨ s.manager.parent li = s.current
  | _ => True

instance (s : Triggering ℓ φ) : (l : TriggerStep ℓ φ) → Decidable (s.Isolated l)
  | .flow (.removeListener none) =>
    inferInstanceAs (Decidable (∀ li ∈ s.pending, s.cancelled li = true ∨ s.manager.parent li = s.current))
  | .flow (.removeListener (some _)) | .flow (.addListener _) | .flow (.clearListeners _) | .next | .finish =>
    inferInstanceAs (Decidable True)

end Triggering

end

namespace ListenerManager

variable {ℓ φ : Type*} [DecidableEq ℓ] {m m' : ListenerManager ℓ φ}

/-! ## What the operations do to the two lists -/

/-- The places of listeners have changed, but nothing that matters for the fire-list. -/
structure SameFire (m m' : ListenerManager ℓ φ) : Prop where
  fireList : m'.fireList = m.fireList
  deleteList : m'.deleteList = m.deleteList
  parent : m'.parent = m.parent

omit [DecidableEq ℓ] in
theorem SameFire.trans {m₁ : ListenerManager ℓ φ} (h : SameFire m m₁) (h' : SameFire m₁ m') : SameFire m m' :=
  ⟨h'.fireList.trans h.fireList, h'.deleteList.trans h.deleteList, h'.parent.trans h.parent⟩

omit [DecidableEq ℓ] in
theorem sameFire_perfRemove (m : ListenerManager ℓ φ) (b : PerfBuffer) (idx : Option ℕ) :
    SameFire m (m.perfRemove b idx) := by
  cases idx with
  | none => exact ⟨rfl, rfl, rfl⟩
  | some idx => exact ⟨rfl, rfl, rfl⟩

theorem sameFire_moveLast (m : ListenerManager ℓ φ) (idx : ℕ) : SameFire m (m.moveLast idx) := by
  unfold moveLast
  split
  · exact ⟨rfl, rfl, rfl⟩
  · dsimp only
    split
    · exact ⟨rfl, rfl, rfl⟩
    · exact ⟨(sameFire_perfRemove _ _ _).fireList, (sameFire_perfRemove _ _ _).deleteList,
        (sameFire_perfRemove _ _ _).parent⟩

theorem sameFire_mRemove {idx : Option ℕ} (h : m.mRemove idx = some m') : SameFire m m' := by
  cases idx with
  | none =>
    obtain rfl := Option.some.inj h
    exact ⟨rfl, rfl, rfl⟩
  | some idx =>
    rw [mRemove] at h
    split at h
    · obtain rfl := Option.some.inj h
      exact ⟨rfl, rfl, rfl⟩
    · obtain ⟨li, -, rfl⟩ := Option.map_eq_some_iff.mp h
      dsimp only
      split
      · exact ⟨(sameFire_moveLast _ _).fireList, (sameFire_moveLast _ _).deleteList,
          (sameFire_moveLast _ _).parent⟩
      · exact ⟨rfl, rfl, rfl⟩

theorem sameFire_removeFrom {li : ℓ} {idx : ℕ} (h : m.removeFrom li idx = some m') : SameFire m m' := by
  unfold removeFrom at h
  dsimp only at h
  split at h
  · exact sameFire_mRemove h
  · exact (sameFire_perfRemove m _ _).trans (sameFire_mRemove h)

variable [DecidableEq φ]

theorem sameFire_removeLoop {flow : Option φ} {fuel i : ℕ} (h : removeLoop flow fuel i m = some m') :
    SameFire m m' := by
  induction fuel generalizing m i with
  | zero =>
    rw [removeLoop] at h
    split at h
    · cases h
    · obtain rfl := Option.some.inj h
      exact ⟨rfl, rfl, rfl⟩
  | succ fuel ih =>
    rw [removeLoop] at h
    split at h
    · obtain rfl := Option.some.inj h
      exact ⟨rfl, rfl, rfl⟩
    · split at h
      · obtain ⟨m₁, hm₁, hrest⟩ := Option.bind_eq_some_iff.mp h
        exact (sameFire_removeFrom hm₁).trans (ih hrest)
      · exact ih h

omit [DecidableEq φ] in
theorem mem_addOnce {deleteList : List ℓ} {x li : ℓ} {cond : Prop} [Decidable cond] :
    li ∈ (if x ∈ deleteList then deleteList else if cond then deleteList ++ [x] else deleteList) ↔
      li ∈ deleteList ∨ li = x ∧ cond := by
  split
  · rename_i hx
    constructor
    · exact Or.inl
    · rintro (h | ⟨rfl, -⟩)
      · exact h
      · exact hx
  · split
    · rename_i hcond
      rw [List.mem_append, List.mem_singleton, and_iff_left hcond]
    · rename_i hcond
      constructor
      · exact Or.inl
      · rintro (h | ⟨-, h⟩)
        · exact h
        · exact absurd h hcond

theorem mem_deleteFired {flow : Option φ} {li : ℓ} :
    li ∈ (m.deleteFired flow).deleteList ↔
      li ∈ m.deleteList ∨ li ∈ m.fireList ∧ (flow = none ∨ m.parent li = flow) := by
  unfold deleteFired
  dsimp only
  generalize m.deleteList = deleteList
  induction m.fireList generalizing deleteList with
  | nil => simp
  | cons x fireList ih =>
    rw [List.foldl_cons, ih, mem_addOnce, List.mem_cons, or_and_right, or_assoc]
    -- whether the flow matches is asked for `x`, which is `li` here
    refine or_congr_right (or_congr_left (and_congr_right ?_))
    rintro rfl
    rfl

omit [DecidableEq φ] in
theorem fireLists_add {cfg : FastConfig} {type : ℓ → ListenerType} {li : ℓ} {flow : Option φ}
    (h : m.add cfg type li flow = some m') : m'.fireList = m.fireList ∧ m'.deleteList = m.deleteList := by
  unfold add at h
  dsimp only at h
  split at h
  · split at h
    · cases h
    · obtain rfl := Option.some.inj h
      exact ⟨rfl, rfl⟩
  · obtain rfl := Option.some.inj h
    exact ⟨rfl, rfl⟩

omit [DecidableEq φ] in
/-- A removed listener is put into the delete-list if it is in the fire-list. -/
theorem fireLists_remove {li : ℓ} (h : m.remove li = some m') :
    m'.fireList = m.fireList ∧ ∀ x ∈ m.fireList, x ∈ m'.deleteList ↔ x ∈ m.deleteList ∨ li = x := by
  obtain ⟨m₁, hm₁, rfl⟩ := Option.map_eq_some_iff.mp h
  have hsame : SameFire m m₁ := by
    split at hm₁
    · obtain rfl := Option.some.inj hm₁
      exact ⟨rfl, rfl, rfl⟩
    · exact sameFire_removeFrom hm₁
  by_cases hli : li ∈ m₁.fireList
  · rw [if_pos hli]
    refine ⟨hsame.fireList, fun x _ => ?_⟩
    dsimp only
    rw [List.mem_append, List.mem_singleton, hsame.deleteList, eq_comm]
  · rw [if_neg hli]
    refine ⟨hsame.fireList, fun x hx => ?_⟩
    have hne : li ≠ x := by
      rintro rfl
      exact hli (hsame.fireList ▸ hx)
    rw [hsame.deleteList, or_iff_left hne]

/-- **What an operation of a flow does to the two lists**: it leaves the fire-list alone, and puts those
listeners of the fire-list into the delete-list that it removes; `removeListener(NULL)` puts in all of them. -/
theorem step_toOp {cfg : FastConfig} {type : ℓ → ListenerType} {current : φ} {op : FlowOp ℓ φ}
    (h : m.step cfg type (op.toOp current) = some m') :
    m'.fireList = m.fireList ∧ ∀ li ∈ m.fireList, li ∈ m'.deleteList ↔
      li ∈ m.deleteList ∨ cancels m current op li = true ∨ op = .removeListener none := by
  cases op with
  | addListener li =>
    obtain ⟨hfire, hdelete⟩ := fireLists_add h
    refine ⟨hfire, fun x _ => ?_⟩
    rw [hdelete]
    simp [cancels]
  | removeListener li =>
    cases li with
    | none =>
      -- besides the listeners of the current flow, the whole fire-list is put into the delete-list
      obtain ⟨m₁, hm₁, rfl⟩ := Option.map_eq_some_iff.mp h
      have hsame := sameFire_removeLoop hm₁
      refine ⟨hsame.fireList, fun x hx => ?_⟩
      dsimp only
      rw [List.mem_append, hsame.fireList, hsame.deleteList]
      simp [hx]
    | some li =>
      obtain ⟨hfire, hdelete⟩ := fireLists_remove h
      refine ⟨hfire, fun x hx => ?_⟩
      rw [hdelete x hx]
      simp [cancels]
  | clearListeners flow =>
    cases flow with
    | none =>
      obtain rfl := Option.some.inj h
      refine ⟨rfl, fun x hx => ?_⟩
      rw [mem_deleteFired]
      simp [cancels, hx, clearAll]
    | some flow =>
      obtain ⟨m₁, hm₁, rfl⟩ := Option.map_eq_some_iff.mp h
      have hsame := sameFire_removeLoop hm₁
      refine ⟨hsame.fireList, fun x hx => ?_⟩
      rw [mem_deleteFired, hsame.fireList, hsame.deleteList, hsame.parent]
      simp [cancels, hx]

end ListenerManager

/-! ## Runs -/

namespace Triggering

variable {ℓ φ : Type*} [DecidableEq ℓ] [DecidableEq φ] {cfg : FastConfig} {type : ℓ → ListenerType}
  {m : ListenerManager ℓ φ} {s s' : Triggering ℓ φ}

/-- **The invariant of a run.** While it goes on, the delete-list has those listeners of the fire-list that
have been removed, and all of them once `removeListener(NULL)` has been called. -/
structure Tracked (m : ListenerManager ℓ φ) (s : Triggering ℓ φ) : Prop where
  turns : s.turns.map Turn.listener ++ s.pending = m.fireList
  triggered : ∀ t ∈ s.turns, t.triggered = !(t.cancelled || t.removedNull)
  unfinished : s.finished = false → s.manager.fireList = m.fireList ∧
    ∀ li ∈ m.fireList, li ∈ s.manager.deleteList ↔ s.cancelled li = true ∨ s.removedNull = true
  finished : s.finished = true → s.pending = [] ∧ s.current = none ∧ s.manager.fireList = [] ∧
    s.manager.deleteList = []

omit [DecidableEq ℓ] [DecidableEq φ] in
theorem start_tracked (hdelete : m.deleteList = []) : Tracked m (start m) where
  turns := List.nil_append _
  triggered t ht := absurd ht List.not_mem_nil
  unfinished _ := by
    refine ⟨rfl, fun li _ => ?_⟩
    show li ∈ m.deleteList ↔ false = true ∨ false = true
    simp [hdelete]
  finished h := absurd h Bool.false_ne_true

theorem step_cases {l : TriggerStep ℓ φ} (hstep : s.step cfg type l = some s') :
    (∃ li pending triggered manager current, s.pending = li :: pending ∧
      triggered = decide (li ∉ s.manager.deleteList) ∧ ListenerManager.SameFire s.manager manager ∧
      s' = { s with
        manager := manager
        pending := pending
        current := current
        turns := s.turns ++ [s.turn li triggered] }) ∨
    (∃ op flow manager, l = .flow op ∧ s.current = some flow ∧
      s.manager.step cfg type (op.toOp flow) = some manager ∧
      s' = { s with
        manager := manager
        cancelled := fun li => s.cancelled li || cancels s.manager flow op li
        removedNull := s.removedNull || decide (op = .removeListener none) }) ∨
    (s.pending = [] ∧
      s' = { s with
        manager := s.manager.clearFireList
        current := none
        finished := true }) := by
  cases l with
  | next =>
    left
    rw [step] at hstep
    cases hpending : s.pending with
    | nil =>
      rw [hpending] at hstep
      cases hstep
    | cons li pending =>
      simp only [hpending] at hstep
      -- a listener that was deleted in the meantime is skipped
      by_cases hli : li ∈ s.manager.deleteList
      · rw [if_pos hli] at hstep
        obtain rfl := Option.some.inj hstep
        exact ⟨li, pending, false, s.manager, none, rfl, by simp [hli], ⟨rfl, rfl, rfl⟩, rfl⟩
      · rw [if_neg hli] at hstep
        obtain ⟨flow, -, rfl⟩ := Option.map_eq_some_iff.mp hstep
        exact ⟨li, pending, true, { s.manager with fired := some li }, some flow, rfl, by simp [hli],
          ⟨rfl, rfl, rfl⟩, rfl⟩
  | flow op =>
    right; left
    obtain ⟨flow, hflow, hop⟩ := Option.bind_eq_some_iff.mp hstep
    obtain ⟨manager, hmanager, rfl⟩ := Option.map_eq_some_iff.mp hop
    exact ⟨op, flow, manager, rfl, hflow, hmanager, rfl⟩
  | finish =>
    right; right
    rw [step] at hstep
    cases hpending : s.pending with
    | nil =>
      simp only [hpending] at hstep
      obtain rfl := Option.some.inj hstep
      exact ⟨rfl, rfl⟩
    | cons li pending =>
      simp only [hpending] at hstep
      cases hstep

theorem Tracked.step {l : TriggerStep ℓ φ} (h : Tracked m s) (hstep : s.step cfg type l = some s') :
    Tracked m s' := by
  obtain ⟨li, pending, triggered, manager, current, hpending, htriggered, hsame, rfl⟩ |
    ⟨op, flow, manager, -, hflow, hmanager, rfl⟩ | ⟨hpending, rfl⟩ := step_cases hstep
  · -- a listener has its turn, so the run is not finished
    have hrunning : s.finished = false := by
      by_contra hfinished
      have := (h.finished (Bool.eq_true_of_not_eq_false hfinished)).1
      rw [hpending] at this
      cases this
    obtain ⟨hfire, hdelete⟩ := h.unfinished hrunning
    have hli : li ∈ m.fireList := by
      rw [← h.turns, hpending]
      exact List.mem_append_right _ List.mem_cons_self
    refine ⟨?_, ?_, fun _ => ⟨hsame.fireList.trans hfire, ?_⟩, fun hfinished => ?_⟩
    · rw [← h.turns, hpending]
      simp [turn]
    · refine List.forall_mem_append.mpr ⟨h.triggered, List.forall_mem_singleton.mpr ?_⟩
      show triggered = !(s.cancelled li || s.removedNull)
      rw [htriggered, decide_not, Bool.not_inj_iff, Bool.eq_iff_iff, decide_eq_true_iff, Bool.or_eq_true]
      exact hdelete li hli
    · dsimp only
      rw [hsame.deleteList]
      exact hdelete
    · exact absurd (hrunning.symm.trans hfinished) Bool.false_ne_true
  · have hrunning : s.finished = false := by
      by_contra hfinished
      have := (h.finished (Bool.eq_true_of_not_eq_false hfinished)).2.1
      rw [hflow] at this
      cases this
    obtain ⟨hfire, hdelete⟩ := h.unfinished hrunning
    obtain ⟨hfire', hdelete'⟩ := ListenerManager.step_toOp hmanager
    refine ⟨h.turns, h.triggered, fun _ => ⟨hfire'.trans hfire, fun li hli => ?_⟩, fun hfinished => ?_⟩
    · rw [hdelete' li (hfire ▸ hli), hdelete li hli]
      simp only [Bool.or_eq_true, decide_eq_true_iff]
      tauto
    · exact absurd (hrunning.symm.trans hfinished) Bool.false_ne_true
  · exact ⟨h.turns, h.triggered, fun hrunning => absurd hrunning.symm Bool.false_ne_true,
      fun _ => ⟨hpending, rfl, rfl, rfl⟩⟩

/-- While the flows are isolated, whoever calls `removeListener(NULL)` removes all pending listeners. -/
structure Unharmed (s : Triggering ℓ φ) : Prop where
  pending : s.removedNull = true → ∀ li ∈ s.pending, s.cancelled li = true
  turns : ∀ t ∈ s.turns, t.removedNull = true → t.cancelled = true

theorem Unharmed.step {l : TriggerStep ℓ φ} (h : Unharmed s) (hl : s.Isolated l)
    (hstep : s.step cfg type l = some s') : Unharmed s' := by
  obtain ⟨li, pending, triggered, manager, current, hpending, -, -, rfl⟩ |
    ⟨op, flow, manager, rfl, hflow, -, rfl⟩ | ⟨-, rfl⟩ := step_cases hstep
  · refine ⟨fun hnull x hx => h.pending hnull x (hpending ▸ List.mem_cons_of_mem li hx), ?_⟩
    refine List.forall_mem_append.mpr ⟨h.turns, List.forall_mem_singleton.mpr fun hnull => ?_⟩
    exact h.pending hnull li (hpending ▸ List.mem_cons_self)
  · refine ⟨fun hnull li hli => ?_, h.turns⟩
    dsimp only at hnull hli ⊢
    rw [Bool.or_eq_true] at hnull ⊢
    obtain hnull | hnull := hnull
    · exact Or.inl (h.pending hnull li hli)
    · obtain rfl := of_decide_eq_true hnull
      obtain hcancelled | hparent := hl li hli
      · exact Or.inl hcancelled
      · exact Or.inr (decide_eq_true (hparent.trans hflow))
  · exact ⟨h.pending, h.turns⟩

omit [DecidableEq ℓ] in
/-- A listener is triggered unless it was removed before, or `removeListener(NULL)` was called before. -/
theorem triggered_iff {t : Turn ℓ} (h : t.triggered = !(t.cancelled || t.removedNull)) :
    ((t.triggered = true ↔ t.cancelled = false) ↔ (t.removedNull = true → t.cancelled = true)) := by
  rw [h]
  cases t.cancelled <;> cases t.removedNull <;> simp

end Triggering

/-! ## The result -/

section

open Triggering

variable {ℓ φ : Type*} [DecidableEq ℓ] [DecidableEq φ]

/-- **Isolation of the flows while listeners are triggered.** In every run every listener of the fire-list has
one turn, in the order of the list, and both lists are empty afterwards. It is triggered in its turn unless it
was removed before, by itself, with its flow or with all flows, if and only if it was removed before whenever
some flow called `removeListener(NULL)` before. So in every run in which `removeListener(NULL)` is only called
when all pending listeners belong to the calling flow or have been removed, a listener is triggered exactly
if it was not removed before its turn. -/
theorem removal_isolation (cfg : FastConfig) (type : ℓ → ListenerType) (m : ListenerManager ℓ φ)
    (hnodup : m.fireList.Nodup) (hdelete : m.deleteList = []) :
    (∀ s, Reachable (step cfg type) (start m) s →
      (s.turns.map Turn.listener).Nodup ∧ s.turns.map Turn.listener ++ s.pending = m.fireList ∧
      (∀ t ∈ s.turns,
        (t.triggered = true ↔ t.cancelled = false) ↔ (t.removedNull = true → t.cancelled = true)) ∧
      (s.finished = true → s.pending = [] ∧ s.manager.fireList = [] ∧ s.manager.deleteList = [])) ∧
    ∀ s, ReachableBy (step cfg type) Isolated (start m) s →
      ∀ t ∈ s.turns, t.triggered = true ↔ t.cancelled = false := by
  have htracked : ∀ s, Reachable (step cfg type) (start m) s → Tracked m s := fun s hs =>
    hs.invariant (start_tracked hdelete) fun _ _ _ h _ hstep => h.step hstep
  constructor
  · intro s hs
    have h := htracked s hs
    refine ⟨?_, h.turns, fun t ht => triggered_iff (h.triggered t ht), fun hfinished => ?_⟩
    · rw [← h.turns] at hnodup
      exact (List.nodup_append.mp hnodup).1
    · obtain ⟨hpending, -, hfire, hdel⟩ := h.finished hfinished
      exact ⟨hpending, hfire, hdel⟩
  · intro s hs t ht
    have hboth : Tracked m s ∧ Unharmed s :=
      hs.invariant (I := fun s => Tracked m s ∧ Unharmed s)
        ⟨start_tracked hdelete, fun h => absurd h Bool.false_ne_true, List.forall_mem_nil _⟩
        fun _ _ _ h hl hstep => ⟨h.1.step hstep, h.2.step hl hstep⟩
    exact (triggered_iff (hboth.1.triggered t ht)).mpr (hboth.2.turns t ht)

/-- Listeners 0 and 1 of flow 7 and listener 2 of flow 8 are in the fire-list. -/
def threeActive : ListenerManager ℕ ℕ :=
  { (ListenerManager.new fun _ => 1 : ListenerManager ℕ ℕ) with
    parent := fun li => if li = 2 then some 8 else some 7
    fireList := [0, 1, 2] }

/-- Flow 7, toggled by listener 0, calls `removeListener(NULL)`. This removes listener 1, but listener 2, which
belongs to flow 8 and has not been removed, is not triggered either. -/
theorem other_flow_is_suppressed :
    (run (step ⟨false, false⟩ fun _ => .other) (start threeActive)
      ([.next, .flow (.removeListener none), .next, .next, .finish] : List (TriggerStep ℕ ℕ))).map
        (fun s => s.turns) =
      some [⟨0, true, false, false⟩, ⟨1, false, true, true⟩, ⟨2, false, false, true⟩] := by
  decide +kernel

/-- Here flow 7 removes its listener 1 alone, and flow 8 calls `removeListener(NULL)` when nothing is
pending. -/
theorem removal_isolation_threeActive :
    ∃ s, runBy (step ⟨false, false⟩ fun _ => .other) (fun s l => decide (s.Isolated l)) (start threeActive)
        ([.next, .flow (.removeListener (some 1)), .next, .next, .flow (.removeListener none), .finish] :
          List (TriggerStep ℕ ℕ)) = some s ∧
      s.turns = [⟨0, true, false, false⟩, ⟨1, false, true, false⟩, ⟨2, true, false, false⟩] ∧
      ∀ t ∈ s.turns, t.triggered = true ↔ t.cancelled = false := by
  have hrun : ∃ s, runBy (step ⟨false, false⟩ fun _ => .other) (fun s l => decide (s.Isolated l))
      (start threeActive) ([.next, .flow (.removeListener (some 1)), .next, .next,
        .flow (.removeListener none), .finish] : List (TriggerStep ℕ ℕ)) = some s ∧
      s.turns = [⟨0, true, false, false⟩, ⟨1, false, true, false⟩, ⟨2, true, false, false⟩] := ⟨_, rfl, rfl⟩
  obtain ⟨s, hs, hturns⟩ := hrun
  exact ⟨s, hs, hturns, (removal_isolation ⟨false, false⟩ (fun _ => .other) threeActive (by decide) rfl).2 s
    (reachableBy_of_runBy _ hs)⟩

end

end FailStar
