import FailStar.Foundations.OrderedMap

/-! # The synchronized containers of the job server

`SynchronizedQueue`, `SynchronizedMap` and `SynchronizedCounter` wrap a standard container with a
mutex that every operation holds from entry to exit. Each operation is therefore one atomic step of
the system: a function from the container to its result. An operation that waits on a condition
variable is a *partial* function, undefined (`none`) exactly while the wait loop would keep waiting.

* **`SynchronizedQueue`** — `enqueue` waits while a bounded queue is full, `dequeue` waits while an
  unfinished queue is empty, `dequeueNb` never waits.
* **`SynchronizedMap`** — `insert` refuses a taken key, `remove` hands the entry out, `pickone` rotates
  through the entries.
* **`SynchronizedCounter`** — a 32-bit counter. -/

namespace FailStar

open Std

/-! ## SynchronizedQueue -/

/-- `SynchronizedQueue<T>`: the items in arrival order, the capacity (`0` = unlimited) and the
finished mark. -/
structure SynchronizedQueue (α : Type*) where
  /-- `m_queue`, front first. -/
  queue : List α := []
  /-- `capacity`; `0` stands for no bound. -/
  capacity : ℕ := 0
  /-- `finished`: no further items are to be expected. -/
  finished : Bool := false

namespace SynchronizedQueue

variable {α : Type*}

/-- `Size()`: the number of items, narrowed to the 32 bits of its `int` result. -/
def size (q : SynchronizedQueue α) : ℕ := q.queue.length % 2 ^ 32

/-- The wait condition of `Enqueue`: the queue is bounded and has no free slot. -/
def Full (q : SynchronizedQueue α) : Prop := q.capacity ≠ 0 ∧ q.capacity ≤ q.queue.length

instance (q : SynchronizedQueue α) : Decidable q.Full := inferInstanceAs (Decidable (_ ∧ _))

/-- `Enqueue`: append an item; waits while the queue is full. -/
def enqueue (q : SynchronizedQueue α) (data : α) : Option (SynchronizedQueue α) :=
  if q.Full then none else some { q with queue := q.queue ++ [data] }

/-- `Dequeue`: take the front item, or return the default (`none`) from a finished empty queue;
waits while the queue is empty and unfinished. -/
def dequeue (q : SynchronizedQueue α) : Option (Option α × SynchronizedQueue α) :=
  match q.queue with
  | [] => if q.finished then some (none, q) else none
  | result :: rest => some (some result, { q with queue := rest })

/-- `Dequeue_nb`: take the front item if there is one. -/
def dequeueNb (q : SynchronizedQueue α) : Option (α × SynchronizedQueue α) :=
  match q.queue with
  | [] => none
  | d :: rest => some (d, { q with queue := rest })

/-- `setIsFinished(true)`. -/
def setIsFinished (q : SynchronizedQueue α) : SynchronizedQueue α := { q with finished := true }

@[simp] theorem setIsFinished_queue (q : SynchronizedQueue α) : q.setIsFinished.queue = q.queue := rfl

@[simp] theorem setIsFinished_capacity (q : SynchronizedQueue α) :
    q.setIsFinished.capacity = q.capacity := rfl

@[simp] theorem setIsFinished_finished (q : SynchronizedQueue α) :
    q.setIsFinished.finished = true := rfl

theorem not_full_of_capacity {q : SynchronizedQueue α} (h : q.capacity = 0) : ¬ q.Full :=
  fun hf => hf.1 h

theorem enqueue_eq_none {q : SynchronizedQueue α} {data : α} : q.enqueue data = none ↔ q.Full := by
  unfold enqueue
  split <;> simp [*]

/-- What `Enqueue` does when it goes through: one item at the back, nothing else. -/
theorem enqueue_eq_some {q q' : SynchronizedQueue α} {data : α} (h : q.enqueue data = some q') :
    ¬ q.Full ∧ q' = { q with queue := q.queue ++ [data] } := by
  unfold enqueue at h
  split at h
  · exact absurd h (by simp)
  · exact ⟨‹_›, (Option.some.inj h).symm⟩

theorem dequeueNb_eq_some {q q' : SynchronizedQueue α} {d : α} (h : q.dequeueNb = some (d, q')) :
    q.queue = d :: q'.queue ∧ q' = { q with queue := q'.queue } := by
  unfold dequeueNb at h
  split at h
  · exact absurd h (by simp)
  · rename_i d' rest hq
    obtain ⟨rfl, rfl⟩ := Prod.mk.inj (Option.some.inj h)
    exact ⟨hq, rfl⟩

theorem dequeue_eq_item {q q' : SynchronizedQueue α} {d : α} (h : q.dequeue = some (some d, q')) :
    q.queue = d :: q'.queue ∧ q' = { q with queue := q'.queue } := by
  unfold dequeue at h
  split at h
  · split at h <;> exact absurd h (by simp)
  · rename_i d' rest hq
    obtain ⟨hd, rfl⟩ := Prod.mk.inj (Option.some.inj h)
    obtain rfl := Option.some.inj hd
    exact ⟨hq, rfl⟩

/-- `Dequeue` returns the default exactly from an empty finished queue, and then changes nothing. -/
theorem dequeue_eq_default {q q' : SynchronizedQueue α} :
    q.dequeue = some (none, q') ↔ q.queue = [] ∧ q.finished = true ∧ q' = q := by
  unfold dequeue
  split
  · split <;> simp [*, eq_comm]
  · simp [*]

theorem queue_ne_nil_of_size {q : SynchronizedQueue α} (h : q.size ≠ 0) : q.queue ≠ [] := by
  rintro hq
  simp [size, hq] at h

/-- Below `2 ^ 32` items, `Size()` is zero exactly on the empty queue. -/
theorem size_eq_zero {q : SynchronizedQueue α} (hlt : q.queue.length < 2 ^ 32) :
    q.size = 0 ↔ q.queue = [] := by
  rw [size, Nat.mod_eq_of_lt hlt, List.length_eq_zero_iff]

end SynchronizedQueue

/-! ## SynchronizedMap -/

/-- `SynchronizedMap<Tkey, Tvalue>`: an ordered map with the rotating pick position. -/
structure SynchronizedMap (κ ν : Type*) [Ord κ] where
  /-- `m_map`. -/
  map : TreeMap κ ν := ∅
  /-- `nextpick`: how far `pickone` walks from the smallest key. -/
  nextpick : ℕ := 0

namespace SynchronizedMap

variable {κ ν : Type*} [Ord κ]

/-- `pick_window_size`. -/
def pickWindowSize : ℕ := 50000

/-- `Size()`: the number of entries, narrowed to the 32 bits of its `int` result. -/
def size (m : SynchronizedMap κ ν) : ℕ := m.map.toList.length % 2 ^ 32

/-- The values in the map, in ascending key order. -/
def values (m : SynchronizedMap κ ν) : List ν := OrderedMap.values m.map

/-- `pickone()`: the entry `nextpick` places after the smallest key, or, when the walk runs off the
end, the smallest key's entry with the walk restarted; `none` on an empty map. -/
def pickone (m : SynchronizedMap κ ν) : Option ν × SynchronizedMap κ ν :=
  match m.map.toList with
  | [] => (none, m)
  | begin :: rest =>
    let (it, nextpick) :=
      match (begin :: rest)[m.nextpick]? with
      | some it => (it, m.nextpick)
      | none => (begin, 0)
    let nextpick := nextpick + 1
    (some it.2, { m with nextpick := if pickWindowSize ≤ nextpick then 0 else nextpick })

/-- `insert(key, value)`: add the entry unless the key is taken; the flag reports whether it was added. -/
def insert (m : SynchronizedMap κ ν) (key : κ) (value : ν) : Bool × SynchronizedMap κ ν :=
  match m.map[key]? with
  | none => (true, { m with map := m.map.insert key value })
  | some _ => (false, m)

/-- `remove(key, value)`: take the entry out and hand its value over, if the key is present. -/
def remove (m : SynchronizedMap κ ν) (key : κ) : Option ν × SynchronizedMap κ ν :=
  match m.map[key]? with
  | some value => (some value, { m with map := m.map.erase key })
  | none => (none, m)

theorem insert_of_free {m : SynchronizedMap κ ν} {key : κ} {value : ν} (h : m.map[key]? = none) :
    m.insert key value = (true, { m with map := m.map.insert key value }) := by
  rw [insert, h]

theorem insert_of_taken {m : SynchronizedMap κ ν} {key : κ} {value v : ν}
    (h : m.map[key]? = some v) : m.insert key value = (false, m) := by
  rw [insert, h]

theorem remove_of_present {m : SynchronizedMap κ ν} {key : κ} {v : ν} (h : m.map[key]? = some v) :
    m.remove key = (some v, { m with map := m.map.erase key }) := by
  rw [remove, h]

theorem remove_of_absent {m : SynchronizedMap κ ν} {key : κ} (h : m.map[key]? = none) :
    m.remove key = (none, m) := by
  rw [remove, h]

@[simp] theorem pickone_map (m : SynchronizedMap κ ν) : m.pickone.2.map = m.map := by
  unfold pickone
  split <;> rfl

theorem pickone_mem {m : SynchronizedMap κ ν} {v : ν} (h : m.pickone.1 = some v) : v ∈ m.values := by
  unfold pickone at h
  split at h
  · exact absurd h (by simp)
  · rename_i b rest hl
    rw [values, OrderedMap.values, hl]
    refine List.mem_map.mpr ⟨_, ?_, Option.some.inj h⟩
    cases hp : (b :: rest)[m.nextpick]? with
    | none => exact List.mem_cons_self
    | some it => exact List.mem_of_getElem? hp

theorem values_ne_nil_of_size {m : SynchronizedMap κ ν} (h : m.size ≠ 0) : m.values ≠ [] := by
  intro hv
  rw [values, OrderedMap.values, List.map_eq_nil_iff] at hv
  simp [size, hv] at h

/-- Below `2 ^ 32` entries, `Size()` is zero exactly on the empty map. -/
theorem size_eq_zero {m : SynchronizedMap κ ν} (hlt : m.values.length < 2 ^ 32) :
    m.size = 0 ↔ m.values = [] := by
  rw [values, OrderedMap.values, List.length_map] at hlt
  rw [size, Nat.mod_eq_of_lt hlt, List.length_eq_zero_iff, values, OrderedMap.values,
    List.map_eq_nil_iff]

variable [TransOrd κ] [LawfulEqOrd κ]

theorem values_insert_of_free {m : SynchronizedMap κ ν} {key : κ} {value : ν}
    (h : m.map[key]? = none) : (m.insert key value).2.values.Perm (value :: m.values) := by
  rw [insert_of_free h]
  exact OrderedMap.values_insert_of_absent h

/-- An insertion keeps the values there are, whether it is refused or not. -/
theorem mem_values_insert {m : SynchronizedMap κ ν} (key : κ) (value : ν) {v : ν}
    (hv : v ∈ m.values) : v ∈ (m.insert key value).2.values := by
  cases hk : m.map[key]? with
  | none => exact (values_insert_of_free hk).mem_iff.mpr (List.mem_cons_of_mem _ hv)
  | some w => rwa [insert_of_taken hk]

theorem values_remove_of_present {m : SynchronizedMap κ ν} {key : κ} {v : ν}
    (h : m.map[key]? = some v) : m.values.Perm (v :: (m.remove key).2.values) := by
  rw [remove_of_present h]
  exact OrderedMap.values_of_present h

end SynchronizedMap

/-! ## SynchronizedCounter -/

/-- `SynchronizedCounter::increment()`: the next value of the 32-bit counter, as the unsigned
workload ID its callers store it in. -/
def SynchronizedCounter.increment (counter : ℕ) : ℕ := (counter + 1) % 2 ^ 32

end FailStar
