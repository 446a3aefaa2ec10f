import FailStar.Foundations.Reachability
import FailStar.Foundations.SwapRemove

/-! # The listener manager

`ListenerManager` keeps the listeners of all experiment flows in a vector, the buffer-list. Every listener
knows its index. With `CONFIG_FAST_BREAKPOINTS` and `CONFIG_FAST_WATCHPOINTS` the breakpoint and memory access
listeners are also in performance buffers, vectors of indices into the buffer-list. A removed listener leaves
its slot to the last one, so both the location of the last one and its index in a performance buffer change.

* **`ListenerManager`** — the manager, with the members of the listeners it manages.
* **`ListenerManager.step`** — its operations.
* **`ListenerManager.Indexed`** — locations and performance buffers are right; `Indexed.removeFrom` says that
  taking a listener out keeps it so, and every other operation is made of that.
* **`listenerManager_consistent`** — it holds in every reachable state. -/

namespace FailStar

/-- The performance buffers: `m_SingleListeners` and `m_RangeListeners` of the fast breakpoints, and
`m_MemListeners` of the fast watchpoints. -/
inductive PerfBuffer
  | single
  | range
  | memory
  deriving DecidableEq, Repr

/-- The type of a listener object, as far as `dynamic_cast` asks for it. -/
inductive ListenerType
  | bpSingle
  | bpRange
  | memAccess
  | other
  deriving DecidableEq, Repr

/-- `CONFIG_FAST_BREAKPOINTS` and `CONFIG_FAST_WATCHPOINTS`. -/
structure FastConfig where
  breakpoints : Bool
  watchpoints : Bool
  deriving DecidableEq, Repr

/-- The performance buffer for listeners of a type, if there is one. -/
def FastConfig.buffer (cfg : FastConfig) : ListenerType → Option PerfBuffer
  | .bpSingle => if cfg.breakpoints then some .single else none
  | .bpRange => if cfg.breakpoints then some .range else none
  | .memAccess => if cfg.watchpoints then some .memory else none
  | .other => none

/-- **The listener manager.** `ℓ` are the pointers to listeners and `φ` those to experiment flows. -/
structure ListenerManager (ℓ φ : Type*) where
  /-- `m_BufferList` -/
  bufferList : List ℓ
  /-- `m_Loc` of the listeners, where `none` is `INVALID_INDEX`. -/
  location : ℓ → Option ℕ
  /-- `m_Home` of the listeners. -/
  home : ℓ → Option PerfBuffer
  /-- The indices in the performance buffers. -/
  perf : PerfBuffer → List ℕ
  /-- `m_OccCounter` of the listeners, an `unsigned`. -/
  counter : ℓ → ℕ
  /-- `m_OccCounterInit` of the listeners. -/
  counterInit : ℓ → ℕ
  /-- `m_Parent` of the listeners, where `none` is a null pointer, the flow of the simulator. -/
  parent : ℓ → Option φ
  /-- `m_FireList` -/
  fireList : List ℓ
  /-- `m_DeleteList` -/
  deleteList : List ℓ
  /-- `m_pFired` -/
  fired : Option ℓ

namespace ListenerManager

variable {ℓ φ : Type*}

section Operations

variable [DecidableEq ℓ] [DecidableEq φ]

/-- `PerfBufferBase::remove` of a performance buffer: the first occurrence of the index is erased. -/
def perfRemove (m : ListenerManager ℓ φ) (b : PerfBuffer) (idx : Option ℕ) : ListenerManager ℓ φ :=
  match idx with
  | none => m
  | some idx => { m with perf := Function.update m.perf b ((m.perf b).erase idx) }

/-- `PerfBufferBase::add` of a performance buffer. -/
def perfAdd (m : ListenerManager ℓ φ) (b : PerfBuffer) (idx : ℕ) : ListenerManager ℓ φ :=
  { m with perf := Function.update m.perf b (m.perf b ++ [idx]) }

/-- The listener manager's `add`. A listener whose type has a performance buffer is added by the slice for this
buffer, all others by the function for `BaseListener`, which asserts that the counter is not zero. -/
def add (cfg : FastConfig) (type : ℓ → ListenerType) (m : ListenerManager ℓ φ) (li : ℓ) (flow : Option φ) :
    Option (ListenerManager ℓ φ) :=
  let added := { m with
    parent := Function.update m.parent li flow
    bufferList := m.bufferList ++ [li]
    location := Function.update m.location li (some m.bufferList.length)
    home := Function.update m.home li (cfg.buffer (type li)) }
  match cfg.buffer (type li) with
  | none => if m.counter li = 0 then none else some added
  | some b => some (added.perfAdd b m.bufferList.length)

/-- The part of `m_remove` that moves the last listener to slot `idx`. -/
def moveLast (m : ListenerManager ℓ φ) (idx : ℕ) : ListenerManager ℓ φ :=
  match m.bufferList.getLast? with
  | none => m
  | some last =>
    let oldLoc := m.location last
    let m := { m with
      bufferList := m.bufferList.set idx last
      location := Function.update m.location last (some idx) }
    match m.home last with
    | none => m
    | some b => (m.perfRemove b oldLoc).perfAdd b idx

/-- **`m_remove`**. An index that is out of range is undefined behaviour: `none`. -/
def mRemove (m : ListenerManager ℓ φ) : Option ℕ → Option (ListenerManager ℓ φ)
  | none => some m
  | some idx =>
    if m.bufferList.isEmpty then some m
    else m.bufferList[idx]?.map fun li =>
      let m := { m with
        home := Function.update m.home li none
        location := Function.update m.location li none }
      let m := if 1 < m.bufferList.length ∧ idx ≠ m.bufferList.length - 1 then m.moveLast idx else m
      { m with bufferList := m.bufferList.dropLast }

/-- Take the listener in slot `idx` out of its performance buffer and out of the buffer-list. -/
def removeFrom (m : ListenerManager ℓ φ) (li : ℓ) (idx : ℕ) : Option (ListenerManager ℓ φ) :=
  let m := match m.home li with
    | none => m
    | some b => m.perfRemove b (some idx)
  m.mRemove (some idx)

/-- The loop that removes all listeners of a flow. A slot is inspected a second time if its listener has been
removed. `fuel` bounds the number of iterations. -/
def removeLoop (flow : Option φ) : ℕ → ℕ → ListenerManager ℓ φ → Option (ListenerManager ℓ φ)
  | 0, i, m => if i < m.bufferList.length then none else some m
  | fuel + 1, i, m =>
    match m.bufferList[i]? with
    | none => some m
    | some li =>
      if m.parent li = flow then (m.removeFrom li i).bind (removeLoop flow fuel i)
      else removeLoop flow fuel (i + 1) m

/-- `remove(NULL)`, called while `current` is the current flow. -/
def removeNull (m : ListenerManager ℓ φ) (current : Option φ) : Option (ListenerManager ℓ φ) :=
  (removeLoop current m.bufferList.length 0 m).map fun m =>
    { m with deleteList := m.deleteList ++ m.fireList }

/-- `remove(li)`, for a listener. -/
def remove (m : ListenerManager ℓ φ) (li : ℓ) : Option (ListenerManager ℓ φ) :=
  let removed := match m.location li with
    | none => some m
    | some idx => m.removeFrom li idx
  removed.map fun m => if li ∈ m.fireList then { m with deleteList := m.deleteList ++ [li] } else m

/-- The part of `remove(flow)` that empties the buffer-list, if the listeners of all flows are removed. -/
def clearAll (m : ListenerManager ℓ φ) : ListenerManager ℓ φ :=
  { m with
    home := fun li => if li ∈ m.bufferList then none else m.home li
    location := fun li => if li ∈ m.bufferList then none else m.location li
    bufferList := []
    perf := fun b => if ∃ li ∈ m.bufferList, m.home li = some b then [] else m.perf b
    deleteList := m.deleteList ++ m.fireList }

/-- The last loop of `remove(flow)`, over the fire-list. -/
def deleteFired (m : ListenerManager ℓ φ) (flow : Option φ) : ListenerManager ℓ φ :=
  { m with
    deleteList := m.fireList.foldl (fun deleteList li =>
      if li ∈ deleteList then deleteList
      else if flow = none ∨ m.parent li = flow then deleteList ++ [li] else deleteList) m.deleteList }

/-- `remove(flow)`, for a flow or (`none`) for all flows. -/
def removeFlow (m : ListenerManager ℓ φ) : Option φ → Option (ListenerManager ℓ φ)
  | none => some (m.clearAll.deleteFired none)
  | some flow => (removeLoop (some flow) m.bufferList.length 0 m).map (·.deleteFired (some flow))

/-- `decreaseCounter`, on an `unsigned` of 32 bits. -/
def decreaseCounter (m : ListenerManager ℓ φ) (li : ℓ) : ListenerManager ℓ φ :=
  { m with counter := Function.update m.counter li ((m.counter li + (2 ^ 32 - 1)) % 2 ^ 32) }

/-- `resetCounter` -/
def resetCounter (m : ListenerManager ℓ φ) (li : ℓ) : ListenerManager ℓ φ :=
  { m with counter := Function.update m.counter li (m.counterInit li) }

/-- `makeActive(iterator)`, for the iterator at slot `i`. The result has the slot of the next iterator; a failed
assertion is `none`. -/
def makeActiveAt (m : ListenerManager ℓ φ) (i : ℕ) : Option (ListenerManager ℓ φ × ℕ) :=
  m.bufferList[i]?.bind fun li =>
    let m := m.decreaseCounter li
    if 0 < m.counter li then some (m, i + 1)
    else
      let m := m.resetCounter li
      if m.home li ≠ none then none
      else (m.mRemove (m.location li)).map fun m => ({ m with fireList := m.fireList ++ [li] }, i)

/-- `makeActive(listener)` -/
def makeActive (m : ListenerManager ℓ φ) (li : ℓ) : Option (ListenerManager ℓ φ) :=
  match m.home li with
  | none => some m
  | some b =>
    let m := m.decreaseCounter li
    if 0 < m.counter li then some m
    else
      let m := (m.resetCounter li).perfRemove b (m.location li)
      (m.mRemove (m.location li)).map fun m => { m with fireList := m.fireList ++ [li] }

/-- The end of `triggerActiveListeners`. -/
def clearFireList (m : ListenerManager ℓ φ) : ListenerManager ℓ φ :=
  { m with
    fireList := []
    deleteList := [] }

/-- An operation of the listener manager, or `setCounter` of a listener. -/
inductive Op (ℓ φ : Type*)
  | add (li : ℓ) (flow : Option φ)
  | remove (li : ℓ)
  | removeNull (current : Option φ)
  | removeFlow (flow : Option φ)
  | makeActiveAt (i : ℕ)
  | makeActive (li : ℓ)
  | clearFireList
  | setCounter (li : ℓ) (val : ℕ)
  deriving DecidableEq, Repr

/-- **One operation.** The result is `none` if an assertion fails. -/
def step (cfg : FastConfig) (type : ℓ → ListenerType) (m : ListenerManager ℓ φ) :
    Op ℓ φ → Option (ListenerManager ℓ φ)
  | .add li flow => m.add cfg type li flow
  | .remove li => m.remove li
  | .removeNull current => m.removeNull current
  | .removeFlow flow => m.removeFlow flow
  | .makeActiveAt i => (m.makeActiveAt i).map Prod.fst
  | .makeActive li => m.makeActive li
  | .clearFireList => some m.clearFireList
  | .setCounter li val => some { m with
      counter := Function.update m.counter li val
      counterInit := Function.update m.counterInit li val }

/-- A listener is added only while it is outside of the buffer-list. -/
def Allowed (m : ListenerManager ℓ φ) : Op ℓ φ → Prop
  | .add li _ => li ∉ m.bufferList
  | _ => True

instance (m : ListenerManager ℓ φ) : (op : Op ℓ φ) → Decidable (m.Allowed op)
  | .add li _ => inferInstanceAs (Decidable (li ∉ m.bufferList))
  | .remove _ | .removeNull _ | .removeFlow _ | .makeActiveAt _ | .makeActive _ | .clearFireList
  | .setCounter _ _ =>
    inferInstanceAs (Decidable True)

/-- What the operations assert about their arguments. -/
def Asserted (cfg : FastConfig) (type : ℓ → ListenerType) (m : ListenerManager ℓ φ) : Op ℓ φ → Prop
  | .add li _ => cfg.buffer (type li) = none → m.counter li ≠ 0
  | .makeActiveAt i => ∃ li, m.bufferList[i]? = some li ∧ m.home li = none
  | _ => True

/-- A manager without listeners. The listeners have any counters and parents, but they are nowhere. -/
structure Fresh (m : ListenerManager ℓ φ) : Prop where
  bufferList : m.bufferList = []
  perf : ∀ b, m.perf b = []
  location : ∀ li, m.location li = none
  home : ∀ li, m.home li = none

/-- A new manager, and new listeners with the given counters. -/
def new (counter : ℓ → ℕ) : ListenerManager ℓ φ where
  bufferList := []
  location := fun _ => none
  home := fun _ => none
  perf := fun _ => []
  counter := counter
  counterInit := counter
  parent := fun _ => none
  fireList := []
  deleteList := []
  fired := none

end Operations

/-! ## The representation invariant -/

/-- **Locations and performance buffers are right.** -/
structure Indexed (m : ListenerManager ℓ φ) : Prop where
  located : Located m.bufferList m.location
  homeless : ∀ li, li ∉ m.bufferList → m.home li = none
  perf : ∀ b, IndexOf m.bufferList (fun li => m.home li = some b) (m.perf b)

variable {cfg : FastConfig} {type : ℓ → ListenerType} {m m' : ListenerManager ℓ φ} {li last : ℓ} {i : ℕ}

theorem new_fresh (counter : ℓ → ℕ) : (new counter : ListenerManager ℓ φ).Fresh :=
  ⟨rfl, fun _ => rfl, fun _ => rfl, fun _ => rfl⟩

theorem Fresh.indexed (h : m.Fresh) : m.Indexed where
  located := by
    refine ⟨?_, fun li _ => h.location li⟩
    intro i li hi
    rw [h.bufferList] at hi
    cases hi
  homeless li _ := h.home li
  perf b := by
    rw [h.perf, h.bufferList]
    exact ⟨List.nodup_nil, by simp⟩

/-- Taking an index out of the performance buffer of its listener takes it out of all performance buffers. -/
theorem Indexed.perfRemove_home (h : m.Indexed) (hi : m.bufferList[i]? = some li) :
    (match m.home li with
      | none => m
      | some b => m.perfRemove b (some i)) = { m with perf := fun b => (m.perf b).erase i } := by
  have hnot : ∀ b, m.home li ≠ some b → (m.perf b).erase i = m.perf b := by
    intro b hb
    apply List.erase_of_not_mem
    intro hmem
    obtain ⟨x, hx, hxb⟩ := ((h.perf b).mem_iff i).mp hmem
    exact hb (Option.some.inj (hi.symm.trans hx) ▸ hxb)
  have hperf : ∀ perf : PerfBuffer → List ℕ, perf = (fun b => (m.perf b).erase i) →
      { m with perf := perf } = { m with perf := fun b => (m.perf b).erase i } := by
    rintro _ rfl
    rfl
  cases hhome : m.home li with
  | none =>
    refine hperf m.perf (funext fun b => ?_)
    rw [hnot b (by simp [hhome])]
  | some b =>
    refine hperf _ (funext fun c => ?_)
    by_cases hcb : c = b
    · rw [hcb, Function.update_self]
    · rw [Function.update_of_ne hcb, hnot c fun hc => hcb (Option.some.inj (hc.symm.trans hhome))]

theorem Indexed.getElem?_of_home (h : m.Indexed) {b : PerfBuffer} (hhome : m.home li = some b) :
    ∃ i : ℕ, m.bufferList[i]? = some li := by
  apply List.mem_iff_getElem?.mp
  by_contra hout
  rw [h.homeless li hout] at hhome
  cases hhome

variable [DecidableEq ℓ]

theorem mRemove_last (hi : m.bufferList[i]? = some li) (hlast : i + 1 = m.bufferList.length) :
    m.mRemove (some i) = some { m with
      bufferList := swapRemove m.bufferList i
      home := Function.update m.home li none
      location := Function.update m.location li none } := by
  have hne : m.bufferList.isEmpty = false := by
    rw [List.isEmpty_eq_false_iff]
    exact List.ne_nil_of_length_pos (by omega)
  have hstay : ¬ (1 < m.bufferList.length ∧ i ≠ m.bufferList.length - 1) := by omega
  have hrest : m.bufferList.dropLast = swapRemove m.bufferList i := by
    have hli : m.bufferList[m.bufferList.length - 1]? = some li := by
      rw [← hi, ← hlast, Nat.add_sub_cancel]
    have hset : m.bufferList.set i li = m.bufferList := by
      obtain ⟨hlt, rfl⟩ := List.getElem?_eq_some_iff.mp hi
      exact List.set_getElem_self hlt
    rw [swapRemove_eq hli, hset]
  rw [mRemove, hne, if_neg Bool.false_ne_true, hi, Option.map_some]
  dsimp only
  rw [if_neg hstay, hrest]

/-- `m_remove` of another slot: the last listener moves there. -/
theorem mRemove_moved (hi : m.bufferList[i]? = some li) (hlt : i + 1 < m.bufferList.length)
    (hlast : m.bufferList[m.bufferList.length - 1]? = some last) (hne : last ≠ li)
    (hloc : m.location last = some (m.bufferList.length - 1)) :
    m.mRemove (some i) = some { m with
      bufferList := swapRemove m.bufferList i
      home := Function.update m.home li none
      location := Function.update (Function.update m.location li none) last (some i)
      perf := match m.home last with
        | none => m.perf
        | some b =>
          Function.update m.perf b ((m.perf b).erase (m.bufferList.length - 1) ++ [i]) } := by
  have hempty : m.bufferList.isEmpty = false := by
    rw [List.isEmpty_eq_false_iff]
    exact List.ne_nil_of_length_pos (by omega)
  have hmove : 1 < m.bufferList.length ∧ i ≠ m.bufferList.length - 1 := by omega
  rw [mRemove, hempty, if_neg Bool.false_ne_true, hi, Option.map_some]
  dsimp only
  rw [if_pos hmove, moveLast]
  dsimp only
  rw [List.getLast?_eq_getElem?, hlast]
  dsimp only
  rw [Function.update_of_ne hne, Function.update_of_ne hne, hloc, swapRemove_eq hlast]
  cases m.home last with
  | none => rfl
  | some b => simp [perfRemove, perfAdd]

theorem update_home_iff {home : ℓ → Option PerfBuffer} {x : ℓ} {b : PerfBuffer} :
    Function.update home li none x = some b ↔ x ≠ li ∧ home x = some b := by
  by_cases hx : x = li
  · simp [hx]
  · simp [hx]

/-- **Taking a listener out of its slot** keeps locations and performance buffers right. -/
theorem Indexed.removeFrom (h : m.Indexed) (hi : m.bufferList[i]? = some li) :
    ∃ location perf,
      m.removeFrom li i = some { m with
        bufferList := swapRemove m.bufferList i
        home := Function.update m.home li none
        location := location
        perf := perf } ∧
      Indexed { m with
        bufferList := swapRemove m.bufferList i
        home := Function.update m.home li none
        location := location
        perf := perf } := by
  have hnodup := h.located.nodup
  have hhomeless : ∀ x, x ∉ swapRemove m.bufferList i → Function.update m.home li none x = none := by
    intro x hx
    rw [mem_swapRemove hnodup hi, not_and_not_right] at hx
    by_cases hxli : x = li
    · rw [hxli, Function.update_self]
    · rw [Function.update_of_ne hxli, h.homeless x fun hmem => hxli (hx hmem)]
  unfold ListenerManager.removeFrom
  rw [h.perfRemove_home hi]
  obtain hlast | hlt : i + 1 = m.bufferList.length ∨ i + 1 < m.bufferList.length := by
    have := (List.getElem?_eq_some_iff.mp hi).1
    omega
  · refine ⟨_, _, mRemove_last hi hlast, h.located.swapRemove_last hi hlast, hhomeless, ?_⟩
    intro b
    exact ((h.perf b).swapRemove_last hnodup hi hlast).congr fun x _ => update_home_iff.symm
  · obtain ⟨last, hlast⟩ : ∃ last, m.bufferList[m.bufferList.length - 1]? = some last :=
      ⟨_, List.getElem?_eq_getElem (by omega)⟩
    have hne : last ≠ li := by
      rintro rfl
      have := h.located.eq_of_getElem? hi hlast
      omega
    refine ⟨_, _, mRemove_moved hi hlt hlast hne (h.located.inside _ _ hlast),
      h.located.swapRemove_moved hi hlt hlast, hhomeless, ?_⟩
    intro b
    refine IndexOf.congr (p := fun x => x ≠ li ∧ m.home x = some b) ?_ fun x _ => update_home_iff.symm
    -- only the performance buffer of the last listener follows the move
    by_cases hb : m.home last = some b
    · have hmoved := (h.perf b).swapRemove_moved hnodup hi hlt hlast hb
      simpa only [hb, Function.update_self] using hmoved
    · have hkept := (h.perf b).swapRemove_kept hnodup hi hlast hb
      cases hhome : m.home last with
      | none => exact hkept
      | some c =>
        have hbc : b ≠ c := by
          rintro rfl
          exact hb hhome
        simpa only [Function.update_of_ne hbc] using hkept

/-- `m'` has some of the listeners of `m`, with the same performance buffers. -/
structure Shrinks (m m' : ListenerManager ℓ φ) : Prop where
  indexed : m'.Indexed
  kept : ∀ x ∈ m'.bufferList, x ∈ m.bufferList ∧ m'.home x = m.home x

omit [DecidableEq ℓ] in
theorem Indexed.shrinks_self (h : m.Indexed) : Shrinks m m := ⟨h, fun _ hx => ⟨hx, rfl⟩⟩

omit [DecidableEq ℓ] in
theorem Shrinks.trans {m₁ : ListenerManager ℓ φ} (h : Shrinks m m₁) (h' : Shrinks m₁ m') : Shrinks m m' where
  indexed := h'.indexed
  kept x hx := by
    obtain ⟨hx₁, hhome⟩ := h'.kept x hx
    obtain ⟨hx₀, hhome₁⟩ := h.kept x hx₁
    exact ⟨hx₀, hhome.trans hhome₁⟩

theorem Indexed.kept_swapRemove (h : m.Indexed) (hi : m.bufferList[i]? = some li) {x : ℓ}
    (hx : x ∈ swapRemove m.bufferList i) :
    x ∈ m.bufferList ∧ Function.update m.home li none x = m.home x := by
  obtain ⟨hmem, hne⟩ := (mem_swapRemove h.located.nodup hi).mp hx
  exact ⟨hmem, Function.update_of_ne hne _ _⟩

theorem Indexed.removeFrom_shrinks (h : m.Indexed) (hi : m.bufferList[i]? = some li) :
    ∃ m', m.removeFrom li i = some m' ∧ Shrinks m m' ∧
      m'.bufferList = swapRemove m.bufferList i := by
  obtain ⟨location, perf, hrem, hind⟩ := h.removeFrom hi
  exact ⟨_, hrem, ⟨hind, fun x hx => h.kept_swapRemove hi hx⟩, rfl⟩

theorem Indexed.add (h : m.Indexed) (hli : li ∉ m.bufferList) {flow : Option φ}
    (hadd : m.add cfg type li flow = some m') : m'.Indexed := by
  have hlocated := h.located.append hli
  have hhomeless : ∀ x, x ∉ m.bufferList ++ [li] →
      Function.update m.home li (cfg.buffer (type li)) x = none := by
    intro x hx
    simp only [List.mem_append, List.mem_singleton, not_or] at hx
    rw [Function.update_of_ne hx.2, h.homeless x hx.1]
  have hperf : ∀ b, IndexOf m.bufferList
      (fun x => Function.update m.home li (cfg.buffer (type li)) x = some b) (m.perf b) := by
    intro b
    refine (h.perf b).congr fun x hx => ?_
    have hne : x ≠ li := by
      rintro rfl
      exact hli hx
    rw [Function.update_of_ne hne]
  have hother : ∀ b, cfg.buffer (type li) ≠ some b → IndexOf (m.bufferList ++ [li])
      (fun x => Function.update m.home li (cfg.buffer (type li)) x = some b) (m.perf b) := by
    intro b hb
    exact (hperf b).append_of_not (by rwa [Function.update_self])
  unfold ListenerManager.add at hadd
  cases hbuffer : cfg.buffer (type li) with
  | none =>
    simp only [hbuffer] at hadd hhomeless hother
    split at hadd
    · cases hadd
    · obtain rfl := Option.some.inj hadd
      exact ⟨hlocated, hhomeless, fun b => hother b (by simp)⟩
  | some b =>
    simp only [hbuffer] at hadd hhomeless hother hperf
    obtain rfl := Option.some.inj hadd
    refine ⟨hlocated, hhomeless, fun c => ?_⟩
    by_cases hcb : c = b
    · subst hcb
      have hself := (hperf c).append (a := li) (by rw [Function.update_self])
      simpa only [perfAdd, Function.update_self] using hself
    · simpa only [perfAdd, Function.update_of_ne hcb] using hother c fun hb => hcb (Option.some.inj hb).symm

theorem Indexed.clearAll (h : m.Indexed) : m.clearAll.Indexed where
  located := by
    refine ⟨fun i x hx => (by cases hx), fun x _ => ?_⟩
    by_cases hx : x ∈ m.bufferList
    · exact if_pos hx
    · exact (if_neg hx).trans (h.located.outside x hx)
  homeless x _ := by
    by_cases hx : x ∈ m.bufferList
    · exact if_pos hx
    · exact (if_neg hx).trans (h.homeless x hx)
  perf b := by
    have hperf : m.clearAll.perf b = [] := by
      by_cases hb : ∃ x ∈ m.bufferList, m.home x = some b
      · exact if_pos hb
      · refine (if_neg hb).trans (List.eq_nil_iff_forall_not_mem.mpr fun j hj => hb ?_)
        obtain ⟨x, hx, hxb⟩ := ((h.perf b).mem_iff j).mp hj
        exact ⟨x, List.mem_of_getElem? hx, hxb⟩
    rw [hperf]
    exact ⟨List.nodup_nil, fun i => by simp [ListenerManager.clearAll]⟩

/-! ### Activation -/

/-- The listener in slot `i` has been moved to the fire-list, with its counter reset. -/
structure Activated (m m' : ListenerManager ℓ φ) (li : ℓ) (i : ℕ) : Prop where
  indexed : m'.Indexed
  bufferList : m'.bufferList = swapRemove m.bufferList i
  home : m'.home = Function.update m.home li none
  counter : m'.counter = Function.update m.counter li (m.counterInit li)
  counterInit : m'.counterInit = m.counterInit
  parent : m'.parent = m.parent
  fireList : m'.fireList = m.fireList ++ [li]
  deleteList : m'.deleteList = m.deleteList

theorem Indexed.activated (h : m.Indexed) (hi : m.bufferList[i]? = some li) :
    ∃ m', (((m.decreaseCounter li).resetCounter li).removeFrom li i).map
        (fun m => { m with fireList := m.fireList ++ [li] }) = some m' ∧ Activated m m' li i := by
  have hind : ((m.decreaseCounter li).resetCounter li).Indexed := ⟨h.located, h.homeless, h.perf⟩
  obtain ⟨location, perf, hrem, hind'⟩ := hind.removeFrom hi
  refine ⟨_, Option.map_eq_some_iff.mpr ⟨_, hrem, rfl⟩, ⟨hind'.located, hind'.homeless, hind'.perf⟩, rfl,
    rfl, ?_, rfl, rfl, rfl, rfl⟩
  simp [resetCounter, decreaseCounter]

/-- **`makeActive(iterator)`** counts a listener down, and moves it to the fire-list when the counter is zero;
then the slot has the next listener. -/
theorem Indexed.makeActiveAt (h : m.Indexed) (hi : m.bufferList[i]? = some li) (hhome : m.home li = none) :
    (0 < (m.decreaseCounter li).counter li ∧ m.makeActiveAt i = some (m.decreaseCounter li, i + 1)) ∨
    ((m.decreaseCounter li).counter li = 0 ∧
      ∃ m', m.makeActiveAt i = some (m', i) ∧ Activated m m' li i) := by
  unfold ListenerManager.makeActiveAt
  rw [hi, Option.bind_some]
  obtain hzero | hpos := Nat.eq_zero_or_pos ((m.decreaseCounter li).counter li)
  · right
    obtain ⟨m', hm', hact⟩ := h.activated hi
    have hloc : ((m.decreaseCounter li).resetCounter li).location li = some i := h.located.inside i li hi
    have hhome' : ((m.decreaseCounter li).resetCounter li).home li = none := hhome
    refine ⟨hzero, m', ?_, hact⟩
    dsimp only
    rw [ListenerManager.removeFrom, hhome'] at hm'
    rw [if_neg (by omega), hhome', if_neg (not_not_intro rfl), hloc]
    obtain ⟨m₁, hm₁, rfl⟩ := Option.map_eq_some_iff.mp hm'
    dsimp only at hm₁
    rw [hm₁, Option.map_some]
  · left
    refine ⟨hpos, ?_⟩
    dsimp only
    rw [if_pos hpos]

/-- **`makeActive(listener)`** does the same for a listener in a performance buffer. -/
theorem Indexed.makeActive (h : m.Indexed) (hi : m.bufferList[i]? = some li) {b : PerfBuffer}
    (hhome : m.home li = some b) :
    (0 < (m.decreaseCounter li).counter li ∧ m.makeActive li = some (m.decreaseCounter li)) ∨
    ((m.decreaseCounter li).counter li = 0 ∧
      ∃ m', m.makeActive li = some m' ∧ Activated m m' li i) := by
  unfold ListenerManager.makeActive
  rw [hhome]
  dsimp only
  obtain hzero | hpos := Nat.eq_zero_or_pos ((m.decreaseCounter li).counter li)
  · right
    obtain ⟨m', hm', hact⟩ := h.activated hi
    have hloc : (m.decreaseCounter li).location li = some i := h.located.inside i li hi
    have hhome' : ((m.decreaseCounter li).resetCounter li).home li = some b := hhome
    refine ⟨hzero, m', ?_, hact⟩
    rw [ListenerManager.removeFrom, hhome'] at hm'
    rw [if_neg (by omega), hloc]
    have hloc' : (((m.decreaseCounter li).resetCounter li).perfRemove b (some i)).location li = some i := hloc
    rw [hloc']
    exact hm'
  · left
    refine ⟨hpos, ?_⟩
    rw [if_pos hpos]

theorem Activated.shrinks (h : m.Indexed) (hi : m.bufferList[i]? = some li)
    (hact : Activated m m' li i) : Shrinks m m' where
  indexed := hact.indexed
  kept x hx := by
    rw [hact.bufferList] at hx
    rw [hact.home]
    exact h.kept_swapRemove hi hx

theorem Indexed.decreaseCounter (h : m.Indexed) : Shrinks m (m.decreaseCounter li) :=
  ⟨⟨h.located, h.homeless, h.perf⟩, fun _ hx => ⟨hx, rfl⟩⟩

/-! ### All operations -/

theorem Indexed.remove (h : m.Indexed) (li : ℓ) : ∃ m', m.remove li = some m' ∧ Shrinks m m' := by
  have hremoved : ∃ m₁, (match m.location li with
      | none => some m
      | some idx => m.removeFrom li idx) = some m₁ ∧ Shrinks m m₁ := by
    cases hloc : m.location li with
    | none => exact ⟨m, rfl, h.shrinks_self⟩
    | some idx =>
      obtain ⟨m₁, hrem, hshrinks, -⟩ := h.removeFrom_shrinks (h.located.getElem? hloc)
      exact ⟨m₁, hrem, hshrinks⟩
  obtain ⟨m₁, hm₁, hind, hkept⟩ := hremoved
  refine ⟨_, by rw [ListenerManager.remove, hm₁, Option.map_some], ?_⟩
  split
  · exact ⟨⟨hind.located, hind.homeless, hind.perf⟩, hkept⟩
  · exact ⟨hind, hkept⟩

theorem Indexed.exists_makeActive (h : m.Indexed) (li : ℓ) :
    ∃ m', m.makeActive li = some m' ∧ Shrinks m m' := by
  cases hhome : m.home li with
  | none => exact ⟨m, by rw [ListenerManager.makeActive, hhome], h.shrinks_self⟩
  | some b =>
    obtain ⟨i, hi⟩ := h.getElem?_of_home hhome
    obtain ⟨-, hact⟩ | ⟨-, m', hm', hact⟩ := h.makeActive hi hhome
    · exact ⟨_, hact, h.decreaseCounter⟩
    · exact ⟨m', hm', hact.shrinks h hi⟩

theorem Indexed.of_makeActiveAt (h : m.Indexed) {j : ℕ} (hact : m.makeActiveAt i = some (m', j)) :
    Shrinks m m' := by
  obtain ⟨li, hi⟩ : ∃ li, m.bufferList[i]? = some li := by
    obtain ⟨li, hi, -⟩ := Option.bind_eq_some_iff.mp hact
    exact ⟨li, hi⟩
  obtain hhome | hhome := eq_or_ne (m.home li) none
  · obtain ⟨-, hact'⟩ | ⟨-, m₁, hm₁, hact'⟩ := h.makeActiveAt hi hhome
    · obtain ⟨rfl, -⟩ := Prod.mk.inj (Option.some.inj (hact'.symm.trans hact))
      exact h.decreaseCounter
    · obtain ⟨rfl, -⟩ := Prod.mk.inj (Option.some.inj (hm₁.symm.trans hact))
      exact hact'.shrinks h hi
  · -- with a performance buffer the listener can only be counted down
    rw [ListenerManager.makeActiveAt, hi, Option.bind_some] at hact
    dsimp only at hact
    split at hact
    · obtain ⟨rfl, -⟩ := Prod.mk.inj (Option.some.inj hact)
      exact h.decreaseCounter
    · have hhome' : ((m.decreaseCounter li).resetCounter li).home li ≠ none := hhome
      rw [if_pos hhome'] at hact
      cases hact

variable [DecidableEq φ]

/-- The loop ends, as every iteration either removes a listener or goes on to the next one. -/
theorem Indexed.removeLoop (h : m.Indexed) (flow : Option φ) {fuel : ℕ}
    (hfuel : m.bufferList.length ≤ i + fuel) :
    ∃ m', removeLoop flow fuel i m = some m' ∧ Shrinks m m' := by
  induction fuel generalizing m i with
  | zero => exact ⟨m, by rw [ListenerManager.removeLoop, if_neg (by omega)], h.shrinks_self⟩
  | succ fuel ih =>
    rw [ListenerManager.removeLoop]
    cases hi : m.bufferList[i]? with
    | none => exact ⟨m, rfl, h.shrinks_self⟩
    | some li =>
      dsimp only
      split
      · obtain ⟨m₁, hrem, hshrinks, hlist⟩ := h.removeFrom_shrinks hi
        have hfuel' : m₁.bufferList.length ≤ i + fuel := by
          rw [hlist, length_swapRemove]
          omega
        obtain ⟨m', hm', hrest⟩ := ih hshrinks.indexed hfuel'
        exact ⟨m', by rw [hrem, Option.bind_some, hm'], hshrinks.trans hrest⟩
      · exact ih h (by omega)

theorem Indexed.removeNull (h : m.Indexed) (current : Option φ) :
    ∃ m', m.removeNull current = some m' ∧ Shrinks m m' := by
  obtain ⟨m₁, hm₁, hind, hkept⟩ := h.removeLoop current (i := 0) (Nat.zero_add _).ge
  exact ⟨_, Option.map_eq_some_iff.mpr ⟨m₁, hm₁, rfl⟩, ⟨hind.located, hind.homeless, hind.perf⟩, hkept⟩

theorem Indexed.removeFlow (h : m.Indexed) (flow : Option φ) :
    ∃ m', m.removeFlow flow = some m' ∧ Shrinks m m' := by
  cases flow with
  | none =>
    refine ⟨_, rfl, ⟨h.clearAll.located, h.clearAll.homeless, h.clearAll.perf⟩, fun x hx => ?_⟩
    cases hx
  | some flow =>
    obtain ⟨m₁, hm₁, hind, hkept⟩ := h.removeLoop (some flow) (i := 0) (Nat.zero_add _).ge
    exact ⟨_, Option.map_eq_some_iff.mpr ⟨m₁, hm₁, rfl⟩, ⟨hind.located, hind.homeless, hind.perf⟩, hkept⟩

theorem Indexed.step_cases (h : m.Indexed) {op : Op ℓ φ} (hstep : m.step cfg type op = some m') :
    (∃ li flow, op = .add li flow ∧ m.add cfg type li flow = some m') ∨ Shrinks m m' := by
  have hdone : ∀ {result}, result = some m' → (∃ m₁, result = some m₁ ∧ Shrinks m m₁) → Shrinks m m' := by
    rintro _ rfl ⟨m₁, hm₁, hshrinks⟩
    exact Option.some.inj hm₁ ▸ hshrinks
  cases op with
  | add li flow => exact Or.inl ⟨li, flow, rfl, hstep⟩
  | remove li => exact Or.inr (hdone hstep (h.remove li))
  | removeNull current => exact Or.inr (hdone hstep (h.removeNull current))
  | removeFlow flow => exact Or.inr (hdone hstep (h.removeFlow flow))
  | makeActiveAt i =>
    obtain ⟨⟨m₁, j⟩, hact, rfl⟩ := Option.map_eq_some_iff.mp hstep
    exact Or.inr (h.of_makeActiveAt hact)
  | makeActive li => exact Or.inr (hdone hstep (h.exists_makeActive li))
  | clearFireList =>
    obtain rfl := Option.some.inj hstep
    exact Or.inr ⟨⟨h.located, h.homeless, h.perf⟩, fun _ hx => ⟨hx, rfl⟩⟩
  | setCounter li val =>
    obtain rfl := Option.some.inj hstep
    exact Or.inr ⟨⟨h.located, h.homeless, h.perf⟩, fun _ hx => ⟨hx, rfl⟩⟩

/-- **Every operation keeps locations and performance buffers right.** -/
theorem Indexed.step (h : m.Indexed) {op : Op ℓ φ} (hop : m.Allowed op)
    (hstep : m.step cfg type op = some m') : m'.Indexed := by
  obtain ⟨li, flow, rfl, hadd⟩ | hshrinks := h.step_cases hstep
  · exact h.add hop hadd
  · exact hshrinks.indexed

/-- No operation fails, except for what it asserts about its arguments. -/
theorem Indexed.exists_step (h : m.Indexed) {op : Op ℓ φ} (hop : m.Asserted cfg type op) :
    ∃ m', m.step cfg type op = some m' := by
  cases op with
  | add li flow =>
    show ∃ m', m.add cfg type li flow = some m'
    unfold ListenerManager.add
    cases hbuffer : cfg.buffer (type li) with
    | none => exact ⟨_, if_neg (hop hbuffer)⟩
    | some b => exact ⟨_, rfl⟩
  | remove li => exact (h.remove li).imp fun _ => And.left
  | removeNull current => exact (h.removeNull current).imp fun _ => And.left
  | removeFlow flow => exact (h.removeFlow flow).imp fun _ => And.left
  | makeActiveAt i =>
    obtain ⟨li, hi, hhome⟩ := hop
    obtain ⟨-, hact⟩ | ⟨-, m', hact, -⟩ := h.makeActiveAt hi hhome
    · exact ⟨_, Option.map_eq_some_iff.mpr ⟨_, hact, rfl⟩⟩
    · exact ⟨_, Option.map_eq_some_iff.mpr ⟨_, hact, rfl⟩⟩
  | makeActive li => exact (h.exists_makeActive li).imp fun _ => And.left
  | clearFireList => exact ⟨_, rfl⟩
  | setCounter li val => exact ⟨_, rfl⟩

variable {m₀ : ListenerManager ℓ φ}

theorem reachable_indexed (h₀ : m₀.Fresh) (h : ReachableBy (step cfg type) Allowed m₀ m) : m.Indexed :=
  h.invariant h₀.indexed fun _ _ _ hind hop hstep => hind.step hop hstep

end ListenerManager

/-! ## The result -/

section

open ListenerManager

variable {ℓ φ : Type*} [DecidableEq ℓ] [DecidableEq φ] {cfg : FastConfig} {type : ℓ → ListenerType}
  {m₀ m : ListenerManager ℓ φ}

/-- **The representation of the listener manager is consistent** after every sequence of operations, with and
without performance buffers: the listener at index `i` has location `i`; no listener is twice in the
buffer-list; a listener outside of it has neither location nor performance buffer; and a performance buffer
has exactly the indices of the listeners that belong to it, without duplicates. No operation fails but for
what it asserts about its arguments. -/
theorem listenerManager_consistent (h₀ : m₀.Fresh) (h : ReachableBy (step cfg type) Allowed m₀ m) :
    (∀ i li, m.bufferList[i]? = some li → m.location li = some i) ∧
    m.bufferList.Nodup ∧
    (∀ li, li ∉ m.bufferList → m.location li = none ∧ m.home li = none) ∧
    (∀ b, (m.perf b).Nodup ∧
      ∀ i, i ∈ m.perf b ↔ ∃ li, m.bufferList[i]? = some li ∧ m.home li = some b) ∧
    ∀ op, m.Asserted cfg type op → ∃ m', m.step cfg type op = some m' := by
  have hind := reachable_indexed h₀ h
  refine ⟨hind.located.inside, hind.located.nodup, ?_, ?_, fun op hop => hind.exists_step hop⟩
  · intro li hli
    exact ⟨hind.located.outside li hli, hind.homeless li hli⟩
  · intro b
    exact ⟨(hind.perf b).nodup, (hind.perf b).mem_iff⟩

/-- Four breakpoint listeners of two flows, one of them without performance buffer. The removed listeners are
first 0, then 1 as it fires, and then the ones of flow 8. -/
def breakpointOps : List (Op ℕ ℕ) :=
  [.add 0 (some 7), .add 1 (some 7), .add 2 (some 8), .add 3 (some 7), .remove 0, .makeActive 1,
    .removeNull (some 8)]

def breakpointTypes (li : ℕ) : ListenerType :=
  if li = 0 then .other else .bpSingle

theorem listenerManager_consistent_breakpointOps :
    ∃ m, runBy (step ⟨true, false⟩ breakpointTypes) (fun m op => decide (m.Allowed op)) (new fun _ => 1)
        breakpointOps = some m ∧
      (∀ i li, m.bufferList[i]? = some li → m.location li = some i) ∧
      m.bufferList.Nodup ∧
      (∀ li, li ∉ m.bufferList → m.location li = none ∧ m.home li = none) ∧
      (∀ b, (m.perf b).Nodup ∧
        ∀ i, i ∈ m.perf b ↔ ∃ li, m.bufferList[i]? = some li ∧ m.home li = some b) ∧
      ∀ op, m.Asserted ⟨true, false⟩ breakpointTypes op →
        ∃ m', m.step ⟨true, false⟩ breakpointTypes op = some m' := by
  have hrun : (runBy (step ⟨true, false⟩ breakpointTypes) (fun m op => decide (m.Allowed op))
      (new fun _ => 1) breakpointOps).isSome := by decide +kernel
  obtain ⟨m, hm⟩ := Option.isSome_iff_exists.mp hrun
  exact ⟨m, hm, listenerManager_consistent (new_fresh _) (reachableBy_of_runBy breakpointOps hm)⟩

end

end FailStar
