import FailStar.Foundations.Intervals

/-! # Lanes: a run that is cut up on two axes

A *lane* records what happens to one place during a run. Every *stamp* on the lane says by which instruction
and at which time the place was used, and where time is taken to begin as far as that is known by then. The
first stamp of an instruction ends the open piece of the lane; the next piece begins behind it, on both axes.

* **`Lane.stamp`**, **`lane`** — one stamp, and a list of stamps.
* **`Newest`** — the stamp that ended the last piece: the first one of the last instruction.
* **`lane_spec`** — the pieces are consecutive on both axes, and where the open piece begins.
* **`Lane.Records.closed_times_iff`** — when the pieces, with the one that ends with the run, fill the time from
  a given start to the end of the run. -/

namespace FailStar

/-- A use of a place: the instruction, the time, and the start of the time axis as known by then. -/
structure Stamp where
  instr : ℕ
  time : ℕ
  start : ℕ
  deriving DecidableEq, Repr

/-- A piece of a lane, on both axes. -/
structure Cut where
  instr1 : ℕ
  instr2 : ℕ
  time1 : ℕ
  time2 : ℕ
  deriving DecidableEq, Repr

/-- The instructions of a piece. -/
def Cut.instrs (c : Cut) : ℕ × ℕ := (c.instr1, c.instr2)

/-- The time of a piece. -/
def Cut.times (c : Cut) : ℕ × ℕ := (c.time1, c.time2)

/-- A lane: where the open piece begins, and the pieces that were ended. An open piece that begins at time
zero begins where time is taken to begin. -/
structure Lane where
  openInstr : ℕ := 0
  openTime : ℕ := 0
  cuts : List Cut := []

/-- **One stamp**, where time is counted up to `wrap`. -/
def Lane.stamp (wrap : ℕ) (l : Lane) (x : Stamp) : Lane :=
  if l.openInstr ≤ x.instr then
    { openInstr := x.instr + 1
      openTime := (x.time + 1) % wrap
      cuts := l.cuts ++ [⟨l.openInstr, x.instr, if l.openTime = 0 then x.start else l.openTime, x.time⟩] }
  else l

/-- **A list of stamps.** -/
def lane (wrap : ℕ) (xs : List Stamp) : Lane := xs.foldl (Lane.stamp wrap) {}

/-- The piece that ends with the run, if it is not empty. -/
def Lane.closing (l : Lane) (lastInstr lastTime : ℕ) : List Cut :=
  if lastInstr < l.openInstr then [] else [⟨l.openInstr, lastInstr, l.openTime, lastTime⟩]

/-- The pieces of the whole run. -/
def Lane.closed (l : Lane) (lastInstr lastTime : ℕ) : List Cut := l.cuts ++ l.closing lastInstr lastTime

variable {wrap : ℕ} {xs : List Stamp} {x y last : Stamp} {l : Lane} {lastInstr lastTime start : ℕ}

/-- What is recorded for one key when an entry is appended. -/
theorem map_filter_fst_concat {κ α β : Type*} [DecidableEq κ] (f : κ × α → β) (xs : List (κ × α))
    (k k' : κ) (x : α) :
    ((xs ++ [(k, x)]).filter fun y => y.1 = k').map f =
      if k = k' then (xs.filter fun y => y.1 = k').map f ++ [f (k, x)]
        else (xs.filter fun y => y.1 = k').map f := by
  rw [List.filter_append, List.map_append]
  by_cases hk : k = k'
  · rw [if_pos hk, List.filter_cons_of_pos (by simpa using hk)]
    rfl
  · rw [if_neg hk, List.filter_cons_of_neg (by simpa using hk)]
    exact List.append_nil _

theorem lane_concat (wrap : ℕ) (xs : List Stamp) (x : Stamp) :
    lane wrap (xs ++ [x]) = (lane wrap xs).stamp wrap x := by
  rw [lane, List.foldl_append]
  rfl

/-- Stamps arrive in the order of the instructions, and a later instruction has a later time. -/
def InOrder (xs : List Stamp) : Prop :=
  xs.Pairwise fun x y => x.instr ≤ y.instr ∧ (x.instr < y.instr → x.time < y.time)

/-- The first stamp of the last instruction. -/
def Newest (xs : List Stamp) (last : Stamp) : Prop :=
  ∃ front back, xs = front ++ last :: back ∧ (∀ x ∈ front, x.instr < last.instr) ∧
    ∀ x ∈ back, x.instr = last.instr

theorem Newest.mem (h : Newest xs last) : last ∈ xs := by
  obtain ⟨front, back, rfl, -⟩ := h
  simp

theorem Newest.instr_le (h : Newest xs last) (hx : x ∈ xs) : x.instr ≤ last.instr := by
  obtain ⟨front, back, rfl, hfront, hback⟩ := h
  rcases List.mem_append.mp hx with hx | hx
  · exact (hfront x hx).le
  · rcases List.mem_cons.mp hx with rfl | hx
    · exact le_rfl
    · exact (hback x hx).le

theorem Newest.snoc (h : Newest xs last) (hy : y.instr = last.instr) : Newest (xs ++ [y]) last := by
  obtain ⟨front, back, rfl, hfront, hback⟩ := h
  refine ⟨front, back ++ [y], by simp, hfront, fun x hx => ?_⟩
  rcases List.mem_append.mp hx with hx | hx
  · exact hback x hx
  · rw [List.mem_singleton.mp hx, hy]

/-- **What a lane holds** behind stamps that begin with `x`. -/
structure Lane.Records (wrap : ℕ) (x last : Stamp) (l : Lane) : Prop where
  openInstr : l.openInstr = last.instr + 1
  openTime : l.openTime = (last.time + 1) % wrap
  instrs : Consecutive 0 (l.cuts.map Cut.instrs) (last.instr + 1)
  times : Consecutive x.start (l.cuts.map Cut.times) (last.time + 1)

theorem Lane.Records.stamp_of_eq (h : l.Records wrap x last) (hy : y.instr = last.instr) :
    l.stamp wrap y = l := by
  rw [Lane.stamp, if_neg]
  rw [h.openInstr]
  omega

/-- A stamp of a later instruction ends a piece. -/
theorem Lane.Records.stamp_of_lt (h : l.Records wrap x last) (hinstr : last.instr < y.instr)
    (htime : last.time < y.time) (hwrap : y.time < wrap) : (l.stamp wrap y).Records wrap x y := by
  have hle : l.openInstr ≤ y.instr := by
    rw [h.openInstr]
    omega
  have hopen : l.openTime = last.time + 1 := by
    rw [h.openTime]
    exact Nat.mod_eq_of_lt (by omega)
  rw [Lane.stamp, if_pos hle]
  refine ⟨rfl, rfl, ?_, ?_⟩
  · rw [List.map_append]
    exact consecutive_append.mpr ⟨_, h.instrs, h.openInstr, hinstr, rfl⟩
  · rw [List.map_append]
    refine consecutive_append.mpr ⟨_, h.times, ?_, htime, rfl⟩
    rw [hopen, if_neg (Nat.succ_ne_zero _)]
    rfl

/-- **A lane is cut up consecutively on both axes**, and its open piece begins behind the newest stamp. -/
theorem lane_spec (horder : InOrder (x :: xs)) (hstart : x.start ≤ x.time)
    (hwrap : ∀ y ∈ x :: xs, y.time < wrap) :
    ∃ last, Newest (x :: xs) last ∧ (lane wrap (x :: xs)).Records wrap x last := by
  induction xs using List.reverseRecOn with
  | nil =>
    refine ⟨x, ⟨[], [], rfl, by simp, by simp⟩, rfl, rfl, ?_, ?_⟩
    · exact ⟨rfl, Nat.zero_le _, rfl⟩
    · exact ⟨rfl, hstart, rfl⟩
  | append_singleton xs y ih =>
    rw [← List.cons_append] at horder hwrap ⊢
    obtain ⟨hfront, -, hlater⟩ := List.pairwise_append.mp horder
    obtain ⟨last, hnewest, hrecords⟩ := ih hfront fun z hz => hwrap z (List.mem_append_left _ hz)
    obtain ⟨hle, htime⟩ := hlater last hnewest.mem y (List.mem_singleton_self y)
    rw [lane_concat]
    rcases Nat.eq_or_lt_of_le hle with heq | hlt
    · refine ⟨last, hnewest.snoc heq.symm, ?_⟩
      rwa [hrecords.stamp_of_eq heq.symm]
    · refine ⟨y, ⟨x :: xs, [], rfl, fun z hz => (hnewest.instr_le hz).trans_lt hlt, by simp⟩, ?_⟩
      exact hrecords.stamp_of_lt hlt (htime hlt) (hwrap y (by simp))

theorem Consecutive.ends {ivs : List (ℕ × ℕ)} {lo hi lo' hi' : ℕ} (h : Consecutive lo ivs hi)
    (hne : ivs ≠ []) : Consecutive lo' ivs hi' ↔ lo = lo' ∧ hi = hi' := by
  constructor
  · intro h'
    induction ivs generalizing lo lo' with
    | nil => exact absurd rfl hne
    | cons iv ivs ih =>
      obtain ⟨hfirst, -, hrest⟩ := h
      obtain ⟨hfirst', -, hrest'⟩ := h'
      refine ⟨hfirst.symm.trans hfirst', ?_⟩
      cases ivs with
      | nil => exact hrest.symm.trans hrest'
      | cons iv' ivs => exact (ih hrest (List.cons_ne_nil _ _) hrest').2
  · rintro ⟨rfl, rfl⟩
    exact h

theorem Lane.Records.cuts_ne_nil (h : l.Records wrap x last) : l.cuts.map Cut.times ≠ [] := by
  intro hnil
  have hinstrs := h.instrs
  rw [List.map_eq_nil_iff.mp hnil] at hinstrs
  exact absurd hinstrs (by simp [Consecutive])

theorem Lane.Records.closing_eq (h : l.Records wrap x last) :
    l.closing lastInstr lastTime =
      if last.instr < lastInstr then [⟨last.instr + 1, lastInstr, (last.time + 1) % wrap, lastTime⟩]
        else [] := by
  rw [Lane.closing, h.openInstr, h.openTime]
  split
  · rw [if_neg (by omega)]
  · rw [if_pos (by omega)]

/-- **The pieces of a stamped lane fill the time** from `start` to the end of the run iff the first piece
begins at `start`, and the newest stamp is at the end of the run, or before it if its instruction is not the
last one. -/
theorem Lane.Records.closed_times_iff (h : l.Records wrap x last) (hwrap : lastTime < wrap) :
    Consecutive start ((l.closed lastInstr lastTime).map Cut.times) (lastTime + 1) ↔
      x.start = start ∧ if last.instr < lastInstr then last.time < lastTime else last.time = lastTime := by
  rw [Lane.closed, List.map_append, h.closing_eq]
  split
  · -- the run goes on behind the newest stamp: a piece is added
    rw [consecutive_append]
    simp only [h.times.ends h.cuts_ne_nil]
    constructor
    · rintro ⟨mid, ⟨hstart, rfl⟩, -, hle, -⟩
      exact ⟨hstart, hle⟩
    · rintro ⟨hstart, htime⟩
      exact ⟨_, ⟨hstart, rfl⟩, Nat.mod_eq_of_lt (by omega), htime, rfl⟩
  · rw [List.map_nil, List.append_nil, h.times.ends h.cuts_ne_nil]
    exact and_congr_right fun _ => Nat.succ_inj

/-- The pieces of a stamped lane are in the order of the instructions. -/
theorem Lane.Records.closed_sorted (h : l.Records wrap x last) :
    (l.closed lastInstr lastTime).Pairwise fun c c' => c.instr2 < c'.instr2 := by
  have hsorted : ((l.closed lastInstr lastTime).map Cut.instrs).Pairwise fun iv iv' => iv.2 < iv'.2 := by
    rw [Lane.closed, List.map_append, h.closing_eq]
    split
    · rename_i hlast
      have hclosing : Consecutive (last.instr + 1)
          (List.map Cut.instrs [⟨last.instr + 1, lastInstr, (last.time + 1) % wrap, lastTime⟩])
          (lastInstr + 1) := ⟨rfl, hlast, rfl⟩
      exact (consecutive_append.mpr ⟨_, h.instrs, hclosing⟩).pairwise_snd
    · rw [List.map_nil, List.append_nil]
      exact h.instrs.pairwise_snd
  rw [List.pairwise_map] at hsorted
  exact hsorted

/-- The first piece of a stamped lane begins where time was taken to begin at the first stamp. -/
theorem Lane.Records.exists_first (h : l.Records wrap x last) (lastInstr lastTime : ℕ) :
    ∃ c ∈ l.closed lastInstr lastTime, c.time1 = x.start := by
  have htimes := h.times
  have hne := h.cuts_ne_nil
  rw [Lane.closed]
  cases hcuts : l.cuts with
  | nil =>
    rw [hcuts] at hne
    exact absurd rfl hne
  | cons c cuts =>
    rw [hcuts] at htimes
    exact ⟨c, List.mem_append_left _ List.mem_cons_self, htimes.1⟩

/-- The newest stamp is the first one of its instruction. -/
theorem Newest.find? (h : Newest xs last) : xs.find? (fun x => x.instr = last.instr) = some last := by
  obtain ⟨front, back, rfl, hfront, -⟩ := h
  rw [List.find?_append, List.find?_eq_none.mpr, Option.none_or, List.find?_cons_of_pos (by simp)]
  intro x hx
  have := hfront x hx
  simp only [decide_eq_true_eq]
  omega

theorem Newest.unique (h : Newest xs x) (h' : Newest xs y) : x = y := by
  have hinstr : x.instr = y.instr := le_antisymm (h'.instr_le h.mem) (h.instr_le h'.mem)
  have hfind := h.find?
  rw [hinstr, h'.find?] at hfind
  exact (Option.some.inj hfind).symm

end FailStar
