import FailStar.Sal.Listener
import FailStar.Sal.ListenerManager

/-! # Dispatching events to listeners

`SimulatorController::onBreakpoint` and `onMemoryAccess` go through the buffer-list with an iterator and
activate the listeners that match, while activation moves listeners of this list. With fast breakpoints or
watchpoints an advice replaces them: it gathers the matching listeners of a performance buffer and activates
them one by one.

* **`ListenerData.isMatching`** — which listeners match an event.
* **`dispatchLoop`**, **`gather`** — the two ways; **`dispatch`** — the one that is compiled in.
* **`Progress`** — what has happened when some listeners have been activated; both ways make the same step.
* **`fast_and_slow_dispatch_agree`** — both ways count and fire the same listeners. -/

namespace FailStar

/-! ## Events and listeners -/

/-- A listener object, with the members that `isMatching` reads. A CPU of `none` is any CPU. -/
inductive ListenerData
  /-- `BPSingleListener` -/
  | bpSingle (watchInstrPtr addressSpace : ℕ) (cpu : Option ℕ)
  /-- `BPRangeListener` -/
  | bpRange (watchStartAddr watchEndAddr addressSpace : ℕ) (cpu : Option ℕ)
  /-- `MemAccessListener`, with the access types as flags. -/
  | memAccess (watchAddr watchWidth watchType : ℕ) (cpu : Option ℕ)
  /-- Any other listener. -/
  | other
  deriving DecidableEq, Repr

/-- An event the simulator back end reports, as the arguments of its handler. -/
inductive BackendEvent
  /-- `onBreakpoint` -/
  | breakpoint (cpu instrPtr addressSpace : ℕ)
  /-- `onMemoryAccess` -/
  | memoryAccess (cpu addr len : ℕ) (isWrite : Bool) (instrPtr : ℕ)
  deriving DecidableEq, Repr

/-- What `dynamic_cast` finds out about the listener. -/
def ListenerData.type : ListenerData → ListenerType
  | .bpSingle _ _ _ => .bpSingle
  | .bpRange _ _ _ _ => .bpRange
  | .memAccess _ _ _ _ => .memAccess
  | .other => .other

/-- `MEM_READ` and `MEM_WRITE` -/
def accessFlag (isWrite : Bool) : ℕ := if isWrite then 2 else 1

/-- `BPListener::aspaceIsMatching` -/
def aspaceIsMatching (w watch addressSpace : ℕ) : Bool :=
  decide (watch = anyAddr w ∨ watch = addressSpace)

/-- The listener watches this CPU. -/
def cpuIsMatching (watch : Option ℕ) (cpu : ℕ) : Bool := decide (watch = none ∨ watch = some cpu)

/-- **`isMatching`**, on a machine with addresses of `w` bits. The sums of an address and a `size_t` are computed
in the wider one of the two types. No listener matches events of another kind. -/
def ListenerData.isMatching (w : ℕ) : ListenerData → BackendEvent → Bool
  | .bpSingle watch aspace watchCpu, .breakpoint cpu instrPtr addressSpace =>
    aspaceIsMatching w aspace addressSpace && cpuIsMatching watchCpu cpu && bpMatches w watch instrPtr
  | .bpRange first last aspace watchCpu, .breakpoint cpu instrPtr addressSpace =>
    aspaceIsMatching w aspace addressSpace && cpuIsMatching watchCpu cpu &&
      !(decide (first ≠ anyAddr w ∧ instrPtr < first) || decide (last ≠ anyAddr w ∧ last < instrPtr))
  | .memAccess watch width watchType watchCpu, .memoryAccess cpu addr len isWrite _ =>
    decide (watchType &&& accessFlag isWrite ≠ 0) &&
      !(decide (watch ≠ anyAddr w) && (decide ((addr + len) % 2 ^ max w 64 ≤ watch) ||
        decide ((watch + width) % 2 ^ max w 64 ≤ addr))) &&
      cpuIsMatching watchCpu cpu
  | _, _ => false

/-- A matching listener of an event of this kind belongs to one of these performance buffers. -/
def BackendEvent.buffers : BackendEvent → List PerfBuffer
  | .breakpoint _ _ _ => [.single, .range]
  | .memoryAccess _ _ _ _ _ => [.memory]

/-- The events of this kind are dispatched by an advice. -/
def FastConfig.isFast (cfg : FastConfig) : BackendEvent → Bool
  | .breakpoint _ _ _ => cfg.breakpoints
  | .memoryAccess _ _ _ _ _ => cfg.watchpoints

namespace ListenerManager

variable {ℓ φ : Type*}

section Operations

variable [DecidableEq ℓ]

/-- The loop of `onBreakpoint` and `onMemoryAccess`, with an iterator at slot `i`. `fuel` bounds the number of
iterations. -/
def dispatchLoop (isMatching : ℓ → Bool) : ℕ → ℕ → ListenerManager ℓ φ → Option (ListenerManager ℓ φ)
  | 0, i, m => if i < m.bufferList.length then none else some m
  | fuel + 1, i, m =>
    match m.bufferList[i]? with
    | none => some m
    | some li =>
      if isMatching li then (m.makeActiveAt i).bind fun next => dispatchLoop isMatching fuel next.2 next.1
      else dispatchLoop isMatching fuel (i + 1) m

/-- `gather` of a performance buffer. `dereference` asserts that the index is valid. -/
def gather (isMatching : ℓ → Bool) (b : PerfBuffer) (m : ListenerManager ℓ φ) : Option (List ℓ) :=
  ((m.perf b).mapM fun idx => m.bufferList[idx]?).map (List.filter isMatching)

/-- Activate the listeners of a `ResultSet`, from the back. -/
def makeAllActive (m : ListenerManager ℓ φ) (res : List ℓ) : Option (ListenerManager ℓ φ) :=
  res.reverse.foldlM makeActive m

/-- The advices: gather and activate, for one performance buffer after the other. -/
def dispatchFast (isMatching : ℓ → Bool) (buffers : List PerfBuffer) (m : ListenerManager ℓ φ) :
    Option (ListenerManager ℓ φ) :=
  buffers.foldlM (fun m b => (m.gather isMatching b).bind m.makeAllActive) m

/-- **Dispatch an event** to the listeners: what the handler of the event does up to
`triggerActiveListeners`. -/
def dispatch (w : ℕ) (cfg : FastConfig) (data : ℓ → ListenerData) (ev : BackendEvent)
    (m : ListenerManager ℓ φ) : Option (ListenerManager ℓ φ) :=
  let isMatching := fun li => (data li).isMatching w ev
  if cfg.isFast ev then m.dispatchFast isMatching ev.buffers
  else dispatchLoop isMatching m.bufferList.length 0 m

end Operations

/-! ## Every listener is in the performance buffer for its type -/

variable {cfg : FastConfig} {type : ℓ → ListenerType} {m₀ m m' : ListenerManager ℓ φ} {li : ℓ} {i : ℕ}

/-- The listeners in the buffer-list are in the performance buffers for their types. -/
def Housed (cfg : FastConfig) (type : ℓ → ListenerType) (m : ListenerManager ℓ φ) : Prop :=
  ∀ li ∈ m.bufferList, m.home li = cfg.buffer (type li)

theorem Shrinks.housed (h : Shrinks m m') (hm : m.Housed cfg type) : m'.Housed cfg type := by
  intro x hx
  obtain ⟨hmem, hhome⟩ := h.kept x hx
  rw [hhome, hm x hmem]

variable [DecidableEq ℓ]

theorem Housed.add (h : m.Housed cfg type) {flow : Option φ} (hadd : m.add cfg type li flow = some m') :
    m'.Housed cfg type := by
  have hhome : ∀ x ∈ m.bufferList ++ [li],
      Function.update m.home li (cfg.buffer (type li)) x = cfg.buffer (type x) := by
    intro x hx
    by_cases hxli : x = li
    · rw [hxli, Function.update_self]
    · rw [Function.update_of_ne hxli]
      rw [List.mem_append, List.mem_singleton] at hx
      exact h x (hx.resolve_right hxli)
  unfold ListenerManager.add at hadd
  cases hbuffer : cfg.buffer (type li) with
  | none =>
    simp only [hbuffer] at hadd hhome
    split at hadd
    · cases hadd
    · exact Option.some.inj hadd ▸ hhome
  | some b =>
    simp only [hbuffer] at hadd hhome
    exact Option.some.inj hadd ▸ hhome

theorem reachable_housed [DecidableEq φ] (h₀ : m₀.Fresh)
    (h : ReachableBy (step cfg type) Allowed m₀ m) : m.Indexed ∧ m.Housed cfg type := by
  refine h.invariant (I := fun m => m.Indexed ∧ m.Housed cfg type) ⟨h₀.indexed, ?_⟩ ?_
  · intro li hli
    rw [h₀.bufferList] at hli
    cases hli
  · rintro m op m' ⟨hind, hhoused⟩ hop hstep
    refine ⟨hind.step hop hstep, ?_⟩
    obtain ⟨li, flow, -, hadd⟩ | hshrinks := hind.step_cases hstep
    · exact hhoused.add hadd
    · exact hshrinks.housed hhoused

/-! ## Activating one listener after the other -/

/-- The counter of a listener after a matching event. -/
def counted (m₀ : ListenerManager ℓ φ) (li : ℓ) : ℕ :=
  if m₀.counter li = 1 then m₀.counterInit li else m₀.counter li - 1

/-- **The listeners `done` have been activated**, in this order, since the event. -/
structure Progress (m₀ m : ListenerManager ℓ φ) (done : List ℓ) : Prop where
  indexed : m.Indexed
  nodup : done.Nodup
  subset : ∀ li ∈ done, li ∈ m₀.bufferList
  counter : ∀ li, m.counter li = if li ∈ done then m₀.counted li else m₀.counter li
  mem_iff : ∀ li, li ∈ m.bufferList ↔ li ∈ m₀.bufferList ∧ ¬ (li ∈ done ∧ m₀.counter li = 1)
  home : ∀ li ∈ m.bufferList, m.home li = m₀.home li
  fireList : m.fireList = m₀.fireList ++ done.filter (fun li => m₀.counter li = 1)
  counterInit : m.counterInit = m₀.counterInit
  parent : m.parent = m₀.parent
  deleteList : m.deleteList = m₀.deleteList

/-- The counter of a listener is an `unsigned` and not zero. -/
def Ready (m : ListenerManager ℓ φ) (li : ℓ) : Prop := 1 ≤ m.counter li ∧ m.counter li < 2 ^ 32

variable {done : List ℓ}

theorem Indexed.progress (h : m.Indexed) : Progress m m [] where
  indexed := h
  nodup := List.nodup_nil
  subset _ h := absurd h List.not_mem_nil
  counter li := (if_neg List.not_mem_nil).symm
  mem_iff li := by simp
  home li _ := rfl
  fireList := (List.append_nil _).symm
  counterInit := rfl
  parent := rfl
  deleteList := rfl

theorem decreaseCounter_self (h : m.Ready li) : (m.decreaseCounter li).counter li = m.counter li - 1 := by
  obtain ⟨hpos, hlt⟩ := h
  show Function.update m.counter li _ li = _
  rw [Function.update_self]
  generalize m.counter li = c at hpos hlt
  have hwrap : c + (2 ^ 32 - 1) = c - 1 + 2 ^ 32 := by omega
  rw [hwrap, Nat.add_mod_right, Nat.mod_eq_of_lt (by omega)]

theorem Progress.counter_eq (h : Progress m₀ m done) (hli : li ∉ done) : m.counter li = m₀.counter li := by
  rw [h.counter, if_neg hli]

theorem Progress.ready (h : Progress m₀ m done) (hli : li ∉ done) (hready : m₀.Ready li) : m.Ready li := by
  rwa [Ready, h.counter_eq hli]

theorem Progress.mem (h : Progress m₀ m done) (hli : li ∉ done) (hmem : li ∈ m₀.bufferList) :
    li ∈ m.bufferList :=
  (h.mem_iff li).mpr ⟨hmem, fun hdone => hli hdone.1⟩

omit [DecidableEq ℓ] in
theorem nodup_concat (hnodup : done.Nodup) (hli : li ∉ done) : (done ++ [li]).Nodup := by
  rw [← List.concat_eq_append]
  exact List.Nodup.concat hli hnodup

theorem Progress.count (h : Progress m₀ m done) (hmem : li ∈ m₀.bufferList) (hli : li ∉ done)
    (hready : m₀.Ready li)
    (hcounter : m₀.counter li ≠ 1) : Progress m₀ (m.decreaseCounter li) (done ++ [li]) where
  indexed := h.indexed.decreaseCounter.indexed
  nodup := nodup_concat h.nodup hli
  subset := List.forall_mem_append.mpr ⟨h.subset, List.forall_mem_singleton.mpr hmem⟩
  counter x := by
    by_cases hx : x = li
    · subst hx
      rw [decreaseCounter_self (h.ready hli hready), h.counter_eq hli, if_pos (by simp), counted,
        if_neg hcounter]
    · have hsame : (m.decreaseCounter li).counter x = m.counter x := Function.update_of_ne hx _ _
      rw [hsame, h.counter]
      simp [hx]
  mem_iff x := by
    rw [show (m.decreaseCounter li).bufferList = m.bufferList from rfl, h.mem_iff]
    have hx : x = li → m₀.counter x ≠ 1 := by
      rintro rfl
      exact hcounter
    simp only [List.mem_append, List.mem_singleton]
    tauto
  home := h.home
  fireList := by
    rw [List.filter_append, show (m.decreaseCounter li).fireList = m.fireList from rfl, h.fireList]
    simp [hcounter]
  counterInit := h.counterInit
  parent := h.parent
  deleteList := h.deleteList

theorem Progress.fire (h : Progress m₀ m done) (hli : li ∉ done) (hi : m.bufferList[i]? = some li)
    (hcounter : m₀.counter li = 1) (hact : Activated m m' li i) : Progress m₀ m' (done ++ [li]) where
  indexed := hact.indexed
  nodup := nodup_concat h.nodup hli
  subset := List.forall_mem_append.mpr
    ⟨h.subset, List.forall_mem_singleton.mpr ((h.mem_iff li).mp (List.mem_of_getElem? hi)).1⟩
  counter x := by
    rw [hact.counter]
    by_cases hx : x = li
    · subst hx
      rw [Function.update_self, if_pos (by simp), counted, if_pos hcounter, h.counterInit]
    · rw [Function.update_of_ne hx, h.counter]
      simp [hx]
  mem_iff x := by
    rw [hact.bufferList, mem_swapRemove h.indexed.located.nodup hi, h.mem_iff]
    have hx : x = li → m₀.counter x = 1 := by
      rintro rfl
      exact hcounter
    simp only [List.mem_append, List.mem_singleton]
    tauto
  home x hx := by
    obtain ⟨hmem, hhome⟩ := (hact.shrinks h.indexed hi).kept x hx
    rw [hhome, h.home x hmem]
  fireList := by
    rw [hact.fireList, h.fireList, List.filter_append, List.append_assoc]
    simp [hcounter]
  counterInit := by rw [hact.counterInit, h.counterInit]
  parent := by rw [hact.parent, h.parent]
  deleteList := by rw [hact.deleteList, h.deleteList]

/-- **`makeActive(iterator)` makes a step.** The iterator goes on, or the last listener moves to its slot. -/
theorem Progress.makeActiveAt (h : Progress m₀ m done) (hi : m.bufferList[i]? = some li) (hli : li ∉ done)
    (hhome : m₀.home li = none) (hready : m₀.Ready li) :
    ∃ m' j, m.makeActiveAt i = some (m', j) ∧ Progress m₀ m' (done ++ [li]) ∧
      ((j = i + 1 ∧ m'.bufferList = m.bufferList) ∨
        (j = i ∧ m'.bufferList = swapRemove m.bufferList i)) := by
  have hmem := List.mem_of_getElem? hi
  have hself := decreaseCounter_self (h.ready hli hready)
  rw [h.counter_eq hli] at hself
  obtain ⟨hpos, hact⟩ | ⟨hzero, m', hm', hact⟩ := h.indexed.makeActiveAt hi ((h.home li hmem).trans hhome)
  · exact ⟨_, i + 1, hact, h.count ((h.mem_iff li).mp hmem).1 hli hready (by omega), Or.inl ⟨rfl, rfl⟩⟩
  · have hone : m₀.counter li = 1 := by
      have := hready.1
      omega
    exact ⟨m', i, hm', h.fire hli hi hone hact, Or.inr ⟨rfl, hact.bufferList⟩⟩

/-- **`makeActive(listener)` makes a step.** -/
theorem Progress.makeActive (h : Progress m₀ m done) (hmem : li ∈ m₀.bufferList) (hli : li ∉ done)
    {b : PerfBuffer} (hhome : m₀.home li = some b) (hready : m₀.Ready li) :
    ∃ m', m.makeActive li = some m' ∧ Progress m₀ m' (done ++ [li]) := by
  have hmem' := h.mem hli hmem
  have hself := decreaseCounter_self (h.ready hli hready)
  rw [h.counter_eq hli] at hself
  obtain ⟨i, hi⟩ := List.mem_iff_getElem?.mp hmem'
  obtain ⟨hpos, hact⟩ | ⟨hzero, m', hm', hact⟩ := h.indexed.makeActive hi ((h.home li hmem').trans hhome)
  · exact ⟨_, hact, h.count hmem hli hready (by omega)⟩
  · have hone : m₀.counter li = 1 := by
      have := hready.1
      omega
    exact ⟨m', hm', h.fire hli hi hone hact⟩

/-! ## The loop with an iterator -/

variable {isMatching : ℓ → Bool}

/-- The iterator is at slot `i`: the matching listeners in the slots before have been activated, and none of
the listeners from there on. -/
structure Scanned (isMatching : ℓ → Bool) (m : ListenerManager ℓ φ) (done : List ℓ) (i : ℕ) : Prop where
  before : ∀ j x, j < i → m.bufferList[j]? = some x → isMatching x → x ∈ done
  after : ∀ j x, i ≤ j → m.bufferList[j]? = some x → x ∉ done
  isMatching : ∀ x ∈ done, isMatching x

omit [DecidableEq ℓ] in
theorem Scanned.skip (h : Scanned isMatching m done i) (hi : m.bufferList[i]? = some li)
    (hli : isMatching li = false) : Scanned isMatching m done (i + 1) where
  before j x hj hx hmatch := by
    obtain hj | rfl := Nat.lt_succ_iff_lt_or_eq.mp hj
    · exact h.before j x hj hx hmatch
    · rw [← Option.some.inj (hi.symm.trans hx), hli] at hmatch
      cases hmatch
  after j x hj := h.after j x (by omega)
  isMatching := h.isMatching

omit [DecidableEq ℓ] in
/-- A listener has been counted and stays where it is. -/
theorem Scanned.stay (h : Scanned isMatching m done i) (hnodup : m.bufferList.Nodup)
    (hi : m.bufferList[i]? = some li) (hli : isMatching li) (hlist : m'.bufferList = m.bufferList) :
    Scanned isMatching m' (done ++ [li]) (i + 1) where
  before j x hj hx hmatch := by
    rw [hlist] at hx
    obtain hj | rfl := Nat.lt_succ_iff_lt_or_eq.mp hj
    · exact List.mem_append_left _ (h.before j x hj hx hmatch)
    · rw [← Option.some.inj (hi.symm.trans hx)]
      exact List.mem_append_right _ (List.mem_singleton_self li)
  after j x hj hx := by
    rw [hlist] at hx
    simp only [List.mem_append, List.mem_singleton, not_or]
    refine ⟨h.after j x (by omega) hx, ?_⟩
    rintro rfl
    have := (List.getElem?_inj (List.getElem?_eq_some_iff.mp hi).1 hnodup).mp (hi.trans hx.symm)
    omega
  isMatching := List.forall_mem_append.mpr ⟨h.isMatching, List.forall_mem_singleton.mpr hli⟩

omit [DecidableEq ℓ] in
/-- A listener has been fired, and the last one has moved to its slot. -/
theorem Scanned.moved (h : Scanned isMatching m done i) (hnodup : m.bufferList.Nodup)
    (hi : m.bufferList[i]? = some li) (hli : isMatching li)
    (hlist : m'.bufferList = swapRemove m.bufferList i) :
    Scanned isMatching m' (done ++ [li]) i where
  before j x hj hx hmatch := by
    rw [hlist, getElem?_swapRemove hi] at hx
    split at hx
    · rw [if_neg (by omega)] at hx
      exact List.mem_append_left _ (h.before j x hj hx hmatch)
    · cases hx
  after j x hj hx := by
    have hmem : x ∈ swapRemove m.bufferList i := hlist ▸ List.mem_of_getElem? hx
    have hne := ((mem_swapRemove hnodup hi).mp hmem).2
    have hlt := (List.getElem?_eq_some_iff.mp hi).1
    simp only [List.mem_append, List.mem_singleton, not_or]
    refine ⟨?_, hne⟩
    rw [hlist, getElem?_swapRemove hi] at hx
    split at hx
    · split at hx
      · exact h.after _ x (by omega) hx
      · exact h.after j x hj hx
    · cases hx
  isMatching := List.forall_mem_append.mpr ⟨h.isMatching, List.forall_mem_singleton.mpr hli⟩

theorem Scanned.complete (hscan : Scanned isMatching m done i) (h : Progress m₀ m done)
    (hlen : m.bufferList.length ≤ i) (li : ℓ) : li ∈ done ↔ li ∈ m₀.bufferList ∧ isMatching li := by
  refine ⟨fun hdone => ⟨h.subset li hdone, hscan.isMatching li hdone⟩, ?_⟩
  rintro ⟨hli, hmatch⟩
  by_contra hout
  obtain ⟨j, hj⟩ := List.mem_iff_getElem?.mp (h.mem hout hli)
  have hlt := (List.getElem?_eq_some_iff.mp hj).1
  exact hout (hscan.before j li (by omega) hj hmatch)

/-- **The loop activates exactly the matching listeners**, each once. -/
theorem dispatchLoop_spec {fuel : ℕ} (h : Progress m₀ m done) (hscan : Scanned isMatching m done i)
    (hfuel : m.bufferList.length ≤ i + fuel)
    (hready : ∀ li ∈ m₀.bufferList, isMatching li → m₀.home li = none ∧ m₀.Ready li) :
    ∃ m' done, dispatchLoop isMatching fuel i m = some m' ∧ Progress m₀ m' done ∧
      ∀ li, li ∈ done ↔ li ∈ m₀.bufferList ∧ isMatching li := by
  induction fuel generalizing m i done with
  | zero =>
    have hlen : m.bufferList.length ≤ i := hfuel
    exact ⟨m, done, by rw [dispatchLoop, if_neg (by omega)], h, hscan.complete h hlen⟩
  | succ fuel ih =>
    rw [dispatchLoop]
    cases hi : m.bufferList[i]? with
    | none => exact ⟨m, done, rfl, h, hscan.complete h (List.getElem?_eq_none_iff.mp hi)⟩
    | some li =>
      dsimp only
      cases hmatch : isMatching li with
      | false =>
        rw [if_neg Bool.false_ne_true]
        exact ih h (hscan.skip hi hmatch) (by omega)
      | true =>
        have hnodup := h.indexed.located.nodup
        have hmem := ((h.mem_iff li).mp (List.mem_of_getElem? hi)).1
        obtain ⟨hhome, hli⟩ := hready li hmem hmatch
        obtain ⟨m', j, hact, hprogress, hwhere⟩ :=
          h.makeActiveAt hi (hscan.after i li le_rfl hi) hhome hli
        rw [if_pos rfl, hact, Option.bind_some]
        -- either way one slot less is left
        obtain ⟨rfl, hlist⟩ | ⟨rfl, hlist⟩ := hwhere
        · refine ih hprogress (hscan.stay hnodup hi hmatch hlist) ?_
          rw [hlist]
          omega
        · refine ih hprogress (hscan.moved hnodup hi hmatch hlist) ?_
          rw [hlist, length_swapRemove]
          omega

/-! ## The advices -/

omit [DecidableEq ℓ] in
theorem gather_spec (h : m.Indexed) (isMatching : ℓ → Bool) (b : PerfBuffer) :
    ∃ res, m.gather isMatching b = some res ∧ res.Nodup ∧
      ∀ li, li ∈ res ↔ li ∈ m.bufferList ∧ m.home li = some b ∧ isMatching li := by
  obtain ⟨xs, hxs, hnodup, hmem⟩ := (h.perf b).lookup h.located.nodup
  refine ⟨xs.filter isMatching, by rw [gather, hxs, Option.map_some], hnodup.filter _, fun li => ?_⟩
  rw [List.mem_filter, hmem, and_assoc]

/-- Activating distinct listeners of a performance buffer. -/
theorem Progress.foldlM_makeActive {b : PerfBuffer} {rest : List ℓ} (h : Progress m₀ m done)
    (hnodup : rest.Nodup)
    (hrest : ∀ li ∈ rest, li ∉ done ∧ li ∈ m₀.bufferList ∧ m₀.home li = some b ∧ m₀.Ready li) :
    ∃ m', rest.foldlM ListenerManager.makeActive m = some m' ∧ Progress m₀ m' (done ++ rest) := by
  induction rest generalizing m done with
  | nil => exact ⟨m, rfl, by rwa [List.append_nil]⟩
  | cons li rest ih =>
    obtain ⟨hli, hnodup⟩ := List.nodup_cons.mp hnodup
    obtain ⟨hdone, hmem, hhome, hready⟩ := hrest li List.mem_cons_self
    obtain ⟨m₁, hact, hprogress⟩ := h.makeActive hmem hdone hhome hready
    obtain ⟨m', hm', hfinal⟩ := ih hprogress hnodup fun x hx => by
      obtain ⟨hxdone, hx'⟩ := hrest x (List.mem_cons_of_mem li hx)
      refine ⟨?_, hx'⟩
      simp only [List.mem_append, List.mem_singleton, not_or]
      refine ⟨hxdone, ?_⟩
      rintro rfl
      exact hli hx
    refine ⟨m', by rw [List.foldlM_cons, hact]; exact hm', ?_⟩
    rwa [List.append_assoc] at hfinal

/-- **The advices activate exactly the matching listeners** of the performance buffers, each once. -/
theorem dispatchFast_spec (isMatching : ℓ → Bool) (h : m.Indexed) {buffers : List PerfBuffer}
    (hbuffers : buffers.Nodup) (hready : ∀ li ∈ m.bufferList, isMatching li → m.Ready li) :
    ∃ m' done, m.dispatchFast isMatching buffers = some m' ∧ Progress m m' done ∧
      ∀ li, li ∈ done ↔ li ∈ m.bufferList ∧ isMatching li ∧ ∃ b ∈ buffers, m.home li = some b := by
  induction buffers using List.reverseRecOn with
  | nil => exact ⟨m, [], rfl, h.progress, by simp⟩
  | append_singleton buffers b ih =>
    obtain ⟨hnodup, -, hb⟩ := List.nodup_append.mp hbuffers
    obtain ⟨m₁, done, hm₁, hprogress, hdone⟩ := ih hnodup
    obtain ⟨res, hres, hresnodup, hmem⟩ := gather_spec hprogress.indexed isMatching b
    -- the listeners of this buffer have not been activated yet
    have hrest : ∀ li ∈ res, li ∉ done ∧ li ∈ m.bufferList ∧ m.home li = some b ∧ isMatching li := by
      intro li hli
      obtain ⟨hli₁, hhome, hmatch⟩ := (hmem li).mp hli
      rw [hprogress.home li hli₁] at hhome
      refine ⟨?_, ((hprogress.mem_iff li).mp hli₁).1, hhome, hmatch⟩
      intro hout
      obtain ⟨-, -, c, hc, hhome'⟩ := (hdone li).mp hout
      exact hb c hc b (List.mem_singleton_self b) (Option.some.inj (hhome'.symm.trans hhome))
    obtain ⟨m', hm', hfinal⟩ := hprogress.foldlM_makeActive (b := b)
      (List.nodup_reverse.mpr hresnodup) fun li hli => by
        obtain ⟨hout, hli₀, hhome, hmatch⟩ := hrest li (List.mem_reverse.mp hli)
        exact ⟨hout, hli₀, hhome, hready li hli₀ hmatch⟩
    refine ⟨m', done ++ res.reverse, ?_, hfinal, fun li => ?_⟩
    · rw [dispatchFast, List.foldlM_append]
      rw [dispatchFast] at hm₁
      rw [hm₁]
      simp only [Option.bind_eq_bind, Option.bind_some, List.foldlM_cons, List.foldlM_nil, hres]
      rw [makeAllActive, hm']
      rfl
    · rw [List.mem_append, List.mem_reverse, hdone]
      constructor
      · rintro (⟨hli, hmatch, c, hc, hhome⟩ | hli)
        · exact ⟨hli, hmatch, c, List.mem_append_left _ hc, hhome⟩
        · obtain ⟨-, hli₀, hhome, hmatch⟩ := hrest li hli
          exact ⟨hli₀, hmatch, b, List.mem_append_right _ (List.mem_singleton_self b), hhome⟩
      · rintro ⟨hli, hmatch, c, hc, hhome⟩
        obtain hc | hc := List.mem_append.mp hc
        · exact Or.inl ⟨hli, hmatch, c, hc, hhome⟩
        · obtain rfl := List.mem_singleton.mp hc
          by_cases hout : li ∈ done
          · exact Or.inl ((hdone li).mp hout)
          · have hli₁ := hprogress.mem hout hli
            exact Or.inr ((hmem li).mpr ⟨hli₁, (hprogress.home li hli₁).trans hhome, hmatch⟩)

/-! ## Both ways -/

/-- **An event has been dispatched**: the counter of every matching listener is decreased, the ones that reach
zero are reset and moved to the fire-list, and everything else stays as it is. -/
structure Dispatched (isMatching : ℓ → Bool) (m m' : ListenerManager ℓ φ) : Prop where
  counter : ∀ li, m'.counter li = if li ∈ m.bufferList ∧ isMatching li then
    (if m.counter li - 1 = 0 then m.counterInit li else m.counter li - 1) else m.counter li
  fires : ∃ fired, m'.fireList = m.fireList ++ fired ∧ fired.Nodup ∧
    ∀ li, li ∈ fired ↔ li ∈ m.bufferList ∧ isMatching li ∧ m.counter li - 1 = 0
  keeps : m'.bufferList.Nodup ∧
    ∀ li, li ∈ m'.bufferList ↔ li ∈ m.bufferList ∧ ¬ (isMatching li ∧ m.counter li - 1 = 0)
  counterInit : m'.counterInit = m.counterInit
  parent : m'.parent = m.parent
  deleteList : m'.deleteList = m.deleteList

/-- If all matching listeners and no others have been activated, the event has been dispatched. -/
theorem Progress.dispatched (h : Progress m m' done)
    (hdone : ∀ li, li ∈ done ↔ li ∈ m.bufferList ∧ isMatching li)
    (hready : ∀ li ∈ m.bufferList, m.Ready li) : Dispatched isMatching m m' := by
  have hone : ∀ li ∈ m.bufferList, m.counter li - 1 = 0 ↔ m.counter li = 1 := by
    intro li hli
    have := (hready li hli).1
    omega
  refine ⟨?_, ⟨_, h.fireList, h.nodup.filter _, ?_⟩, ⟨h.indexed.located.nodup, ?_⟩, h.counterInit, h.parent,
    h.deleteList⟩
  · intro li
    rw [h.counter]
    by_cases hli : li ∈ m.bufferList ∧ isMatching li
    · rw [if_pos ((hdone li).mpr hli), if_pos hli, counted]
      simp only [hone li hli.1]
    · rw [if_neg (mt (hdone li).mp hli), if_neg hli]
  · intro li
    rw [List.mem_filter, hdone, decide_eq_true_iff, and_assoc]
    constructor
    · rintro ⟨hli, hmatch, hcounter⟩
      exact ⟨hli, hmatch, (hone li hli).mpr hcounter⟩
    · rintro ⟨hli, hmatch, hcounter⟩
      exact ⟨hli, hmatch, (hone li hli).mp hcounter⟩
  · intro li
    rw [h.mem_iff, hdone]
    constructor
    · rintro ⟨hli, hkept⟩
      exact ⟨hli, fun hfired => hkept ⟨⟨hli, hfired.1⟩, (hone li hli).mp hfired.2⟩⟩
    · rintro ⟨hli, hkept⟩
      exact ⟨hli, fun hfired => hkept ⟨hfired.1.2, (hone li hli).mpr hfired.2⟩⟩

end ListenerManager

/-- A matching listener is in a performance buffer that the advice searches, or, without advice, in none. -/
theorem ListenerData.buffer_of_isMatching {w : ℕ} {cfg : FastConfig} {data : ListenerData} {ev : BackendEvent}
    (h : data.isMatching w ev = true) :
    (cfg.isFast ev = true → ∃ b ∈ ev.buffers, cfg.buffer data.type = some b) ∧
    (cfg.isFast ev = false → cfg.buffer data.type = none) := by
  cases ev <;> cases data <;>
    first
    | cases h
    | refine ⟨fun hfast => ?_, fun hslow => ?_⟩
      · simp_all [FastConfig.isFast, FastConfig.buffer, BackendEvent.buffers, ListenerData.type]
      · simp_all [FastConfig.isFast, FastConfig.buffer, ListenerData.type]

theorem BackendEvent.buffers_nodup (ev : BackendEvent) : ev.buffers.Nodup := by
  cases ev <;> simp [BackendEvent.buffers]

section

open ListenerManager

variable {ℓ φ : Type*} [DecidableEq ℓ] [DecidableEq φ] {data : ℓ → ListenerData}
  {cfg cfg₁ cfg₂ : FastConfig} {m m₀₁ m₀₂ m₁ m₂ : ListenerManager ℓ φ}

omit [DecidableEq φ] in
/-- **The handler that is compiled in dispatches the event.** -/
theorem dispatch_dispatched (w : ℕ) (ev : BackendEvent) (h : m.Indexed)
    (hhoused : m.Housed cfg fun li => (data li).type) (hready : ∀ li ∈ m.bufferList, m.Ready li) :
    ∃ m', dispatch w cfg data ev m = some m' ∧
      Dispatched (fun li => (data li).isMatching w ev) m m' := by
  unfold dispatch
  cases hfast : cfg.isFast ev with
  | true =>
    obtain ⟨m', done, hm', hprogress, hdone⟩ :=
      dispatchFast_spec (fun li => (data li).isMatching w ev) h ev.buffers_nodup
        fun li hli _ => hready li hli
    refine ⟨m', hm', hprogress.dispatched (fun li => ?_) hready⟩
    rw [hdone]
    refine ⟨fun hli => ⟨hli.1, hli.2.1⟩, fun hli => ⟨hli.1, hli.2, ?_⟩⟩
    obtain ⟨b, hb, hbuffer⟩ := (ListenerData.buffer_of_isMatching hli.2).1 hfast
    exact ⟨b, hb, (hhoused li hli.1).trans hbuffer⟩
  | false =>
    have hscan : Scanned (fun li => (data li).isMatching w ev) m [] 0 :=
      ⟨fun j x hj => absurd hj (Nat.not_lt_zero j), fun _ _ _ _ => List.not_mem_nil,
        List.forall_mem_nil _⟩
    obtain ⟨m', done, hm', hprogress, hdone⟩ := dispatchLoop_spec h.progress hscan (Nat.zero_add _).ge
      fun li hli hmatch =>
        ⟨(hhoused li hli).trans ((ListenerData.buffer_of_isMatching hmatch).2 hfast), hready li hli⟩
    exact ⟨m', hm', hprogress.dispatched hdone hready⟩

/-- Two managers have the same listeners, with the same counters. The order of the listeners and their
performance buffers may be different. -/
def SameListeners (m₁ m₂ : ListenerManager ℓ φ) : Prop :=
  ∀ li, (li ∈ m₁.bufferList ↔ li ∈ m₂.bufferList) ∧ m₁.counter li = m₂.counter li ∧
    m₁.counterInit li = m₂.counterInit li

/-- **Fast and slow dispatch agree**: in every reachable state of a manager, with whatever performance buffers,
in which all counters are at least 1, the handler of an event decreases the counter of every matching listener
once and of no other one, moves exactly the ones that reach zero to the fire-list with their counters reset,
and keeps the others. So managers with the same listeners but different performance buffers fire the same
listeners, up to the order, and still have the same listeners afterwards. -/
theorem fast_and_slow_dispatch_agree (w : ℕ) (data : ℓ → ListenerData) (ev : BackendEvent)
    (h₀₁ : m₀₁.Fresh) (h₁ : ReachableBy (step cfg₁ fun li => (data li).type) Allowed m₀₁ m₁)
    (hready₁ : ∀ li ∈ m₁.bufferList, m₁.Ready li)
    (h₀₂ : m₀₂.Fresh) (h₂ : ReachableBy (step cfg₂ fun li => (data li).type) Allowed m₀₂ m₂)
    (hready₂ : ∀ li ∈ m₂.bufferList, m₂.Ready li) (hsame : SameListeners m₁ m₂) :
    ∃ m₁' m₂', dispatch w cfg₁ data ev m₁ = some m₁' ∧ dispatch w cfg₂ data ev m₂ = some m₂' ∧
      Dispatched (fun li => (data li).isMatching w ev) m₁ m₁' ∧
      Dispatched (fun li => (data li).isMatching w ev) m₂ m₂' ∧
      SameListeners m₁' m₂' ∧
      ∃ fired₁ fired₂, m₁'.fireList = m₁.fireList ++ fired₁ ∧ m₂'.fireList = m₂.fireList ++ fired₂ ∧
        fired₁.Perm fired₂ := by
  obtain ⟨hind₁, hhoused₁⟩ := reachable_housed h₀₁ h₁
  obtain ⟨hind₂, hhoused₂⟩ := reachable_housed h₀₂ h₂
  obtain ⟨m₁', hm₁', hd₁⟩ := dispatch_dispatched w ev hind₁ hhoused₁ hready₁
  obtain ⟨m₂', hm₂', hd₂⟩ := dispatch_dispatched w ev hind₂ hhoused₂ hready₂
  refine ⟨m₁', m₂', hm₁', hm₂', hd₁, hd₂, ?_, ?_⟩
  · intro li
    obtain ⟨hmem, hcounter, hinit⟩ := hsame li
    rw [hd₁.keeps.2, hd₂.keeps.2, hd₁.counter, hd₂.counter, hd₁.counterInit, hd₂.counterInit, hcounter, hinit]
    simp only [hmem, and_self]
  · obtain ⟨fired₁, hfired₁, hnodup₁, hmem₁⟩ := hd₁.fires
    obtain ⟨fired₂, hfired₂, hnodup₂, hmem₂⟩ := hd₂.fires
    refine ⟨fired₁, fired₂, hfired₁, hfired₂, (List.perm_ext_iff_of_nodup hnodup₁ hnodup₂).mpr fun li => ?_⟩
    obtain ⟨hmem, hcounter, -⟩ := hsame li
    rw [hmem₁, hmem₂, hmem, hcounter]

/-- Two breakpoints, a range of breakpoints and a watchpoint. -/
def mixedListeners (li : ℕ) : ListenerData :=
  if li = 0 then .bpSingle 16 (anyAddr 32) none
  else if li = 1 then .bpSingle (anyAddr 32) (anyAddr 32) none
  else if li = 2 then .bpRange 8 32 (anyAddr 32) (some 0)
  else .memAccess 100 4 3 none

/-- The second breakpoint waits for two events, all others for one. -/
def mixedCounters (li : ℕ) : ℕ := if li = 1 then 2 else 1

def addMixed (cfg : FastConfig) : Option (ListenerManager ℕ ℕ) :=
  runBy (step cfg fun li => (mixedListeners li).type) (fun m op => decide (m.Allowed op))
    (new mixedCounters) ([.add 0 (some 7), .add 1 (some 7), .add 2 (some 8), .add 3 (some 8)] : List (Op ℕ ℕ))

theorem addMixed_spec (cfg : FastConfig) (h : cfg = ⟨false, false⟩ ∨ cfg = ⟨true, true⟩) :
    ∃ m, addMixed cfg = some m ∧ m.bufferList = [0, 1, 2, 3] ∧ m.counter = mixedCounters ∧
      m.counterInit = mixedCounters := by
  obtain rfl | rfl := h
  · exact ⟨_, rfl, rfl, rfl, rfl⟩
  · exact ⟨_, rfl, rfl, rfl, rfl⟩

theorem fast_and_slow_dispatch_agree_mixed :
    ∃ m₁ m₂, addMixed ⟨false, false⟩ = some m₁ ∧ addMixed ⟨true, true⟩ = some m₂ ∧
      ∃ m₁' m₂', dispatch 32 ⟨false, false⟩ mixedListeners (.breakpoint 0 16 0) m₁ = some m₁' ∧
        dispatch 32 ⟨true, true⟩ mixedListeners (.breakpoint 0 16 0) m₂ = some m₂' ∧
        Dispatched (fun li => (mixedListeners li).isMatching 32 (.breakpoint 0 16 0)) m₁ m₁' ∧
        Dispatched (fun li => (mixedListeners li).isMatching 32 (.breakpoint 0 16 0)) m₂ m₂' ∧
        SameListeners m₁' m₂' ∧
        ∃ fired₁ fired₂, m₁'.fireList = m₁.fireList ++ fired₁ ∧ m₂'.fireList = m₂.fireList ++ fired₂ ∧
          fired₁.Perm fired₂ := by
  obtain ⟨m₁, hm₁, hlist₁, hcounter₁, hinit₁⟩ := addMixed_spec ⟨false, false⟩ (Or.inl rfl)
  obtain ⟨m₂, hm₂, hlist₂, hcounter₂, hinit₂⟩ := addMixed_spec ⟨true, true⟩ (Or.inr rfl)
  refine ⟨m₁, m₂, hm₁, hm₂, fast_and_slow_dispatch_agree 32 mixedListeners (.breakpoint 0 16 0)
    (new_fresh mixedCounters) (reachableBy_of_runBy _ hm₁) ?_
    (new_fresh mixedCounters) (reachableBy_of_runBy _ hm₂) ?_ ?_⟩
  · rw [hlist₁]
    unfold Ready
    rw [hcounter₁]
    decide
  · rw [hlist₂]
    unfold Ready
    rw [hcounter₂]
    decide
  · intro li
    rw [hlist₁, hlist₂, hcounter₁, hcounter₂, hinit₁, hinit₂]
    exact ⟨Iff.rfl, rfl, rfl⟩

end

end FailStar
