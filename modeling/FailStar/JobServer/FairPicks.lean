import FailStar.JobServer.Containers

/-! # Fair picks

`SynchronizedMap::pickone` chooses the running job that is sent again. It walks `nextpick` entries from the
beginning of the map, and starts over at its end. The cursor is a mere number: it survives removals, and may then
lie behind the end.

* **`SynchronizedMap.walk`**, **`SynchronizedMap.pickoneAt`** — the walk of the iterator. Dereferencing the end
  of the map would be undefined; it never happens (`pickoneAt_eq`).
* **`SynchronizedMap.ring`** — the entries in the order in which they are picked. A pick takes the front of the
  ring to its back (`ring_pickone`), as long as the map is not larger than the window.
* **`SynchronizedMap.picks_fair`** — as many picks as there are entries return every entry once. -/

namespace FailStar

open Std

namespace SynchronizedMap

variable {κ ν : Type*} [Ord κ]

/-! ## The iterator -/

/-- The loop of `pickone`: the position of the iterator behind some more steps in a map of `n` entries, and
whether it arrived at the end and started over. -/
def walk (n : ℕ) : ℕ → ℕ → ℕ × Bool
  | 0, it => (it, false)
  | steps + 1, it => if it + 1 = n then (0, true) else walk n steps (it + 1)

/-- `pickone()`, with its iterator. `none` stands for the end of the map being dereferenced. -/
def pickoneAt (m : SynchronizedMap κ ν) : Option (Option ν × SynchronizedMap κ ν) :=
  let entries := m.map.toList
  if entries.length = 0 then some (none, m)
  else
    let (it, atEnd) := walk entries.length m.nextpick 0
    let nextpick := (if atEnd then 0 else m.nextpick) + 1
    entries[it]?.map fun entry =>
      (some entry.2, { m with nextpick := if pickWindowSize ≤ nextpick then 0 else nextpick })

theorem walk_eq {n steps it : ℕ} (h : it < n) :
    walk n steps it = if it + steps < n then (it + steps, false) else (0, true) := by
  induction steps generalizing it with
  | zero => rw [walk, Nat.add_zero, if_pos h]
  | succ steps ih =>
    rw [walk]
    by_cases hend : it + 1 = n
    · rw [if_pos hend, if_neg (by omega)]
    · rw [if_neg hend, ih (by omega), Nat.add_right_comm, Nat.add_assoc]

/-- **The end of the map is never dereferenced.** -/
theorem pickoneAt_eq (m : SynchronizedMap κ ν) : m.pickoneAt = some m.pickone := by
  unfold pickoneAt pickone
  cases hentries : m.map.toList with
  | nil => rfl
  | cons first rest =>
    dsimp only
    rw [if_neg (by simp), walk_eq (by simp), Nat.zero_add]
    by_cases hlt : m.nextpick < (first :: rest).length
    · rw [if_pos hlt, List.getElem?_eq_getElem hlt]
      rfl
    · rw [if_neg hlt, List.getElem?_eq_none (Nat.not_lt.mp hlt)]
      rfl

/-! ## The ring -/

/-- The position of the next pick. -/
def start (m : SynchronizedMap κ ν) : ℕ := if m.nextpick < m.map.toList.length then m.nextpick else 0

/-- The entries, in the order in which they are picked. -/
def ring (m : SynchronizedMap κ ν) : List (κ × ν) := m.map.toList.rotate m.start

theorem start_lt {m : SynchronizedMap κ ν} (h : 0 < m.map.toList.length) : m.start < m.map.toList.length := by
  unfold start
  split
  · assumption
  · exact h

theorem pickone_eq {m : SynchronizedMap κ ν} (h : m.start < m.map.toList.length) :
    m.pickone = (some (m.map.toList.get ⟨m.start, h⟩).2,
      { m with nextpick := if pickWindowSize ≤ m.start + 1 then 0 else m.start + 1 }) := by
  unfold pickone
  split
  · rename_i hnil
    simp [hnil] at h
  · rename_i first rest hcons
    by_cases hlt : m.nextpick < m.map.toList.length
    · have hstart : m.start = m.nextpick := if_pos hlt
      have hsome : (first :: rest)[m.nextpick]? = some (m.map.toList.get ⟨m.start, h⟩) := by
        rw [← hcons, List.getElem?_eq_getElem hlt]
        simp [hstart]
      rw [hsome, ← hstart]
    · have hstart : m.start = 0 := if_neg hlt
      have hnone : (first :: rest)[m.nextpick]? = none := by
        rw [← hcons]
        exact List.getElem?_eq_none (Nat.not_lt.mp hlt)
      simp [hnone, hstart, hcons]

theorem start_pickone {m : SynchronizedMap κ ν} (hpos : 0 < m.map.toList.length)
    (hwindow : m.map.toList.length ≤ pickWindowSize) :
    m.pickone.2.start = (m.start + 1) % m.map.toList.length := by
  have hlt := start_lt hpos
  rw [pickone_eq hlt, start]
  dsimp only
  by_cases hlast : m.start + 1 = m.map.toList.length
  · -- the last entry: the cursor is reset, or left behind the end
    rw [hlast, Nat.mod_self]
    split
    · rfl
    · exact if_neg (lt_irrefl _)
  · have hinside : ¬pickWindowSize ≤ m.start + 1 := by omega
    rw [Nat.mod_eq_of_lt (by omega), if_neg hinside, if_pos (by omega)]

/-- **A pick takes the front of the ring to its back.** -/
theorem ring_pickone {m : SynchronizedMap κ ν} {entry : κ × ν} {rest : List (κ × ν)}
    (hring : m.ring = entry :: rest) (hwindow : m.map.toList.length ≤ pickWindowSize) :
    m.pickone.1 = some entry.2 ∧ m.pickone.2.ring = rest ++ [entry] := by
  have hlength : m.map.toList.length = rest.length + 1 := by
    have hring' := congrArg List.length hring
    rwa [ring, List.length_rotate, List.length_cons] at hring'
  have hpos : 0 < m.map.toList.length := by omega
  have hlt := start_lt hpos
  have hentry : m.map.toList.get ⟨m.start, hlt⟩ = entry := by
    have hhead : m.ring[0]? = some entry := by rw [hring]; rfl
    rw [ring, List.getElem?_rotate hpos, Nat.zero_add, Nat.mod_eq_of_lt hlt,
      List.getElem?_eq_getElem hlt] at hhead
    exact Option.some.inj hhead
  constructor
  · rw [pickone_eq hlt, hentry]
  · rw [ring, start_pickone hpos hwindow, pickone_map, List.rotate_mod, ← List.rotate_rotate, ← ring, hring,
      List.rotate_cons_succ, List.rotate_zero]

/-! ## Several picks -/

/-- Some consecutive calls of `pickone`, and what they return. -/
def picks : ℕ → SynchronizedMap κ ν → Option (List (Option ν) × SynchronizedMap κ ν)
  | 0, m => some ([], m)
  | k + 1, m => m.pickoneAt.bind fun (value, m) => (picks k m).map fun (values, m) => (value :: values, m)

/-- **The picks go around the ring.** -/
theorem picks_eq {m : SynchronizedMap κ ν} {front back : List (κ × ν)} (hring : m.ring = front ++ back)
    (hwindow : m.map.toList.length ≤ pickWindowSize) :
    ∃ m', m.picks front.length = some (front.map fun entry => some entry.2, m') := by
  induction front generalizing m back with
  | nil => exact ⟨m, rfl⟩
  | cons entry front ih =>
    rw [List.cons_append] at hring
    obtain ⟨hvalue, hring'⟩ := ring_pickone hring hwindow
    rw [List.append_assoc] at hring'
    obtain ⟨m', hm'⟩ := ih hring' (by rwa [pickone_map])
    refine ⟨m', ?_⟩
    rw [List.length_cons, picks, pickoneAt_eq, Option.bind_some]
    dsimp only
    rw [hm', hvalue]
    rfl

/-- **Picks are fair.** While the map is not changed and is not larger than the window, as many picks as it has
entries return every entry exactly once, wherever the cursor was left; and no pick ever dereferences the end of
the map. -/
theorem picks_fair (m : SynchronizedMap κ ν) (hwindow : m.map.toList.length ≤ pickWindowSize) :
    (∃ (picked : List (κ × ν)) (m' : SynchronizedMap κ ν),
      m.picks m.map.toList.length = some (picked.map fun entry => some entry.2, m') ∧ picked.Perm m.map.toList) ∧
    ∀ k, (m.picks k).isSome := by
  constructor
  · obtain ⟨m', hm'⟩ := picks_eq (List.append_nil m.ring).symm hwindow
    rw [ring, List.length_rotate] at hm'
    exact ⟨m.ring, m', hm', List.rotate_perm _ _⟩
  · intro k
    clear hwindow
    induction k generalizing m with
    | zero => rfl
    | succ k ih =>
      rw [picks, pickoneAt_eq, Option.bind_some, Option.isSome_map]
      exact ih _

/-- Three jobs, with a cursor that was left behind the end. -/
theorem picks_fair_three :
    let m : SynchronizedMap ℕ ℕ := { map := TreeMap.ofList [(1, 10), (2, 20), (3, 30)], nextpick := 17 }
    ∃ (picked : List (ℕ × ℕ)) (m' : SynchronizedMap ℕ ℕ),
      m.picks m.map.toList.length = some (picked.map fun entry => some entry.2, m') ∧ picked.Perm m.map.toList :=
  (picks_fair { map := TreeMap.ofList [(1, 10), (2, 20), (3, 30)], nextpick := 17 } (by decide)).1

end SynchronizedMap

end FailStar
