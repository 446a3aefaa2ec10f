import Mathlib.Data.List.SplitBy
import Mathlib.Data.List.TakeWhile
import Mathlib.Tactic

/-! # Blocks of a path

A path through a program is cut in front of every leader. If all leaders are marked where the path does not fall
through, at both the place it goes to and the place it does not go to, then the blocks are determined by their
leader.

* **`blocks`** — the path, cut in front of every leader; **`blocks_cons`** — one block after the other.
* **`Marked`** — wherever the path does not fall through, both places are leaders.
* **`Marked.fallsThrough`**, **`Marked.isPrefix_of_head`** — a block falls through, and a block that is not the
  last one contains every other block with the same leader.
* **`InOneBlock`** — when a point in time lies between the ends of exactly one block
  (`countP_blocks_eq_one_iff`). -/

namespace FailStar

variable {α κ : Type*}

/-- **The blocks of a path**: it is cut in front of every leader. -/
def blocks (addr : α → κ) (leader : κ → Bool) (xs : List α) : List (List α) :=
  xs.splitBy fun _ y => !leader (addr y)

section Cut

variable (addr : α → κ) (leader : κ → Bool)

theorem flatten_blocks (xs : List α) : (blocks addr leader xs).flatten = xs := List.flatten_splitBy _ xs

theorem nil_notMem_blocks (xs : List α) : [] ∉ blocks addr leader xs := List.nil_notMem_splitBy _ xs

/-- The first block goes up to the first leader behind its beginning. -/
theorem blocks_cons (x : α) (xs : List α) :
    blocks addr leader (x :: xs) =
      (x :: xs.takeWhile fun y => !leader (addr y)) :: blocks addr leader
        (xs.dropWhile fun y => !leader (addr y)) := by
  have hchain : (x :: xs.takeWhile fun y => !leader (addr y)).IsChain fun _ y => (!leader (addr y)) = true := by
    rw [List.isChain_iff_getElem]
    intro i hi
    rw [List.getElem_cons_succ]
    exact List.mem_takeWhile_imp (p := fun y => !leader (addr y)) (List.getElem_mem _)
  have hcut : ∀ y ∈ (xs.dropWhile fun y => !leader (addr y)).head?, (!leader (addr y)) = false := by
    intro y hy
    have hnot := List.head?_dropWhile_not (fun y => !leader (addr y)) xs
    rw [Option.mem_def.mp hy] at hnot
    exact hnot
  have happend := List.splitBy_append (r := fun _ y => !leader (addr y))
    (l := x :: xs.takeWhile fun y => !leader (addr y)) (m := xs.dropWhile fun y => !leader (addr y))
    fun _ _ y hy => hcut y hy
  rw [List.cons_append, List.takeWhile_append_dropWhile,
    List.splitBy_of_isChain (List.cons_ne_nil _ _) hchain] at happend
  exact happend

variable {addr leader} {xs b : List α}

theorem tail_not_leader (hb : b ∈ blocks addr leader xs) {i : ℕ} (hi : i + 1 < b.length) :
    leader (addr b[i + 1]) = false := by
  have hchain := List.isChain_iff_getElem.mp (List.isChain_of_mem_splitBy hb) i hi
  simpa using hchain

end Cut

section Marked

variable {addr : α → κ} {next : κ → κ} {leader : κ → Bool} {xs b b' : List α}

/-- **Wherever the path does not fall through, both places are leaders**: the one it goes to, and the one it does
not go to. -/
def Marked (addr : α → κ) (next : κ → κ) (leader : κ → Bool) (xs : List α) : Prop :=
  xs.IsChain fun x y => next (addr x) = addr y ∨ (leader (addr y) = true ∧ leader (next (addr x)) = true)

/-- **A block falls through.** -/
theorem Marked.fallsThrough (h : Marked addr next leader xs) (hb : b ∈ blocks addr leader xs) :
    b.IsChain fun x y => next (addr x) = addr y := by
  have hinfix : b <:+: xs := by
    have := List.infix_of_mem_flatten hb
    rwa [flatten_blocks] at this
  have hchain := List.IsChain.infix h hinfix
  have hmarked := List.isChain_iff_getElem.mp hchain
  rw [List.isChain_iff_getElem]
  intro i hi
  obtain hfall | ⟨hleader, -⟩ := hmarked i hi
  · exact hfall
  · rw [tail_not_leader hb hi] at hleader
    cases hleader

/-- Behind a block that is not the last one there is a leader, on the path and in the program. -/
theorem Marked.leader_next (h : Marked addr next leader xs) {i : ℕ} (hi : i + 1 < (blocks addr leader xs).length)
    (hb : (blocks addr leader xs)[i]? = some b) (hlast : b ≠ []) :
    leader (next (addr (b.getLast hlast))) = true := by
  have hnil := nil_notMem_blocks addr leader xs
  have hflat : (blocks addr leader xs).flatten.IsChain fun x y =>
      next (addr x) = addr y ∨ (leader (addr y) = true ∧ leader (next (addr x)) = true) := by
    rw [flatten_blocks]
    exact h
  have hpairs := List.isChain_iff_getElem.mp ((List.isChain_flatten hnil).mp hflat).2 i hi
  have hcuts :=
    List.isChain_iff_getElem.mp (List.isChain_getLast_head_splitBy (fun _ y => !leader (addr y)) xs) i hi
  obtain ⟨-, hb', hcut⟩ := hcuts
  rw [List.getElem?_eq_getElem (Nat.lt_of_succ_lt hi), Option.some.injEq] at hb
  subst hb
  have hhead : leader (addr ((blocks addr leader xs)[i + 1].head hb')) = true := by
    rw [Bool.not_eq_false'] at hcut
    exact hcut
  obtain hfall | ⟨-, hnext⟩ := hpairs _ (List.getLast_mem_getLast? hlast) _ (List.head_mem_head? hb')
  · rw [hfall]
    exact hhead
  · exact hnext

/-- Two paths that fall through from the same place: one of them goes on where the other one ends. -/
theorem isPrefix_or_isPrefix {x x' : α} {ys ys' : List α}
    (h : (x :: ys).IsChain fun x y => next (addr x) = addr y)
    (h' : (x' :: ys').IsChain fun x y => next (addr x) = addr y) (hhead : addr x = addr x') :
    (x :: ys).map addr <+: (x' :: ys').map addr ∨ (x' :: ys').map addr <+: (x :: ys).map addr := by
  induction ys generalizing x x' ys' with
  | nil =>
    refine Or.inl ?_
    rw [List.map_singleton, List.map_cons, hhead]
    exact ⟨ys'.map addr, rfl⟩
  | cons y ys ih =>
    cases ys' with
    | nil =>
      refine Or.inr ?_
      rw [List.map_singleton, List.map_cons, hhead]
      exact ⟨(y :: ys).map addr, rfl⟩
    | cons y' ys' =>
      rw [List.isChain_cons_cons] at h h'
      rw [List.map_cons, List.map_cons (l := y' :: ys'), hhead, List.cons_prefix_cons, List.cons_prefix_cons]
      exact (ih h.2 h'.2 (by rw [← h.1, ← h'.1, hhead])).imp (And.intro rfl) (And.intro rfl)

/-- **A block that is not the last one contains every other block with the same leader.** Otherwise the other one
would go on behind its end, where there is a leader. -/
theorem Marked.isPrefix_of_head (h : Marked addr next leader xs) {i : ℕ}
    (hi : i + 1 < (blocks addr leader xs).length) (hb : (blocks addr leader xs)[i]? = some b)
    (hb' : b' ∈ blocks addr leader xs) (hhead : b.head?.map addr = b'.head?.map addr) :
    b'.map addr <+: b.map addr := by
  have hmem : b ∈ blocks addr leader xs := List.mem_of_getElem? hb
  have hne : b ≠ [] := fun hnil => nil_notMem_blocks addr leader xs (hnil ▸ hmem)
  have hne' : b' ≠ [] := fun hnil => nil_notMem_blocks addr leader xs (hnil ▸ hb')
  have hleader := h.leader_next hi hb hne
  have hfall := h.fallsThrough hmem
  have hfall' := h.fallsThrough hb'
  obtain ⟨x, ys, rfl⟩ := List.exists_cons_of_ne_nil hne
  obtain ⟨x', ys', rfl⟩ := List.exists_cons_of_ne_nil hne'
  obtain hcut | hcut := isPrefix_or_isPrefix hfall hfall' (Option.some.inj hhead)
  · by_cases hlt : (x :: ys).length < (x' :: ys').length
    · -- the other block goes on behind the end of this one
      exfalso
      have hlen : ys.length + 1 < (x' :: ys').length := hlt
      have hstep := List.isChain_iff_getElem.mp hfall' ys.length hlen
      have hnot := tail_not_leader hb' hlen
      have hsame : addr ((x :: ys).getLast hne) = addr (x' :: ys')[ys.length] := by
        have := hcut.getElem (i := ys.length) (by simp)
        rw [List.getElem_map, List.getElem_map] at this
        rw [← this, List.getLast_eq_getElem]
        rfl
      rw [hsame, hstep, hnot] at hleader
      cases hleader
    · have hlen := hcut.length_le
      rw [List.length_map, List.length_map] at hlen
      rw [hcut.eq_of_length (by rw [List.length_map, List.length_map]; omega)]
  · exact hcut

/-- **Blocks with the same leader are the same**, but the last block may end earlier. -/
theorem Marked.same_of_head (h : Marked addr next leader xs) {i j : ℕ}
    (hb : (blocks addr leader xs)[i]? = some b)
    (hb' : (blocks addr leader xs)[j]? = some b') (hhead : b.head?.map addr = b'.head?.map addr) :
    b.map addr = b'.map addr ∨ (i + 1 = (blocks addr leader xs).length ∧ b.map addr <+: b'.map addr) ∨
      (j + 1 = (blocks addr leader xs).length ∧ b'.map addr <+: b.map addr) := by
  have hlti := (List.getElem?_eq_some_iff.mp hb).1
  have hltj := (List.getElem?_eq_some_iff.mp hb').1
  have hcut := fun hlt => h.isPrefix_of_head hlt hb (List.mem_of_getElem? hb') hhead
  have hcut' := fun hlt => h.isPrefix_of_head hlt hb' (List.mem_of_getElem? hb) hhead.symm
  by_cases hlasti : i + 1 = (blocks addr leader xs).length
  · by_cases hlastj : j + 1 = (blocks addr leader xs).length
    · obtain rfl : i = j := by omega
      rw [hb, Option.some.injEq] at hb'
      rw [hb']
      exact Or.inl rfl
    · exact Or.inr (Or.inl ⟨hlasti, hcut' (by omega)⟩)
  · by_cases hlastj : j + 1 = (blocks addr leader xs).length
    · exact Or.inr (Or.inr ⟨hlastj, hcut (by omega)⟩)
    · -- each of them contains the other one
      exact Or.inl ((hcut' (by omega)).eq_of_length_le (hcut (by omega)).length_le)

end Marked

section Times

variable {addr : α → κ} {leader : κ → Bool} {time : α → ℕ} {xs : List α} {s : ℕ}

/-- A point in time lies between the ends of a block. -/
def coversTime (time : α → ℕ) (s : ℕ) (b : List α) : Bool :=
  (b.head?.any fun x => decide (time x ≤ s)) && b.getLast?.any fun x => decide (s ≤ time x)

theorem coversTime_cons (x : α) (xs : List α) :
    coversTime time s (x :: xs) = true ↔ time x ≤ s ∧ s ≤ time ((x :: xs).getLast (List.cons_ne_nil x xs)) := by
  simp [coversTime, List.getLast?_eq_some_getLast]

/-- **A point in time lies in one block.** If the first element at or behind the point is at the point, no other
element at the point is a leader. Otherwise the element is neither the first one nor a leader. -/
def InOneBlock (addr : α → κ) (leader : κ → Bool) (time : α → ℕ) (xs : List α) (s : ℕ) : Prop :=
  ∃ front x back, xs = front ++ x :: back ∧ (∀ y ∈ front, time y < s) ∧ s ≤ time x ∧
    if time x = s then ∀ y ∈ back, time y = s → leader (addr y) = false else front ≠ [] ∧ leader (addr x) = false

/-- In a sorted list, the first element at or behind a point. -/
theorem exists_first_ge {b : List α} (hb : ∃ x ∈ b, s ≤ time x) :
    ∃ front x back, b = front ++ x :: back ∧ (∀ y ∈ front, time y < s) ∧ s ≤ time x := by
  induction b with
  | nil => simp at hb
  | cons y b ih =>
    by_cases hy : s ≤ time y
    · exact ⟨[], y, b, rfl, by simp, hy⟩
    · obtain ⟨x, hx, hle⟩ := hb
      rcases List.mem_cons.mp hx with rfl | hx
      · exact absurd hle hy
      · obtain ⟨front, x, back, rfl, hfront, hx⟩ := ih ⟨x, hx, hle⟩
        exact ⟨y :: front, x, back, rfl, List.forall_mem_cons.mpr ⟨Nat.not_le.mp hy, hfront⟩, hx⟩

theorem countP_blocks_eq_zero (hlater : ∀ x ∈ xs, s < time x) :
    (blocks addr leader xs).countP (coversTime time s) = 0 := by
  rw [List.countP_eq_zero]
  intro b hb hcovers
  cases b with
  | nil => exact nil_notMem_blocks addr leader xs hb
  | cons x b =>
    have hx : x ∈ xs := by
      rw [← flatten_blocks addr leader xs]
      exact List.mem_flatten_of_mem hb List.mem_cons_self
    have := hlater x hx
    have := ((coversTime_cons x b).mp hcovers).1
    omega

theorem not_inOneBlock (hlater : ∀ x ∈ xs, s < time x) : ¬InOneBlock addr leader time xs s := by
  rintro ⟨front, e, back, rfl, hfront, he, hcond⟩
  have hempty : front = [] := List.eq_nil_iff_forall_not_mem.mpr fun y hy =>
    Nat.lt_asymm (hlater y (List.mem_append_left _ hy)) (hfront y hy)
  rw [if_neg (hlater e (by simp)).ne'] at hcond
  exact hcond.1 hempty

/-- The blocks that begin at or behind the point: none contains it if they all begin behind it. -/
theorem countP_blocks_eq_zero_iff (hsorted : xs.Pairwise fun x y => time x ≤ time y)
    (hlater : ∀ x ∈ xs, s ≤ time x) :
    (blocks addr leader xs).countP (coversTime time s) = 0 ↔ ∀ x ∈ xs.head?, s < time x := by
  cases xs with
  | nil => simp [blocks]
  | cons x xs =>
    obtain ⟨hfirst, -⟩ := List.pairwise_cons.mp hsorted
    simp only [List.head?_cons, Option.mem_def, Option.some.injEq, forall_eq']
    constructor
    · intro hzero
      refine (hlater x List.mem_cons_self).lt_of_ne fun heq => ?_
      -- the first block begins at the point
      rw [blocks_cons, List.countP_cons_of_pos] at hzero
      · omega
      · refine (coversTime_cons _ _).mpr ⟨heq.ge, hlater _ ?_⟩
        rcases List.mem_cons.mp
          (List.getLast_mem (List.cons_ne_nil x (xs.takeWhile fun y => !leader (addr y)))) with h | h
        · rw [h]
          exact List.mem_cons_self
        · exact List.mem_cons_of_mem x ((List.takeWhile_sublist _).subset h)
    · intro hlt
      exact countP_blocks_eq_zero (List.forall_mem_cons.mpr ⟨hlt, fun y hy => hlt.trans_le (hfirst y hy)⟩)

/-- A point behind the first block lies in one block if it lies in one of the others. -/
theorem inOneBlock_append_of_lt {b : List α} (hne : b ≠ []) (hb : ∀ y ∈ b, time y < s)
    (hhead : ∀ x ∈ xs.head?, leader (addr x) = true) :
    InOneBlock addr leader time (b ++ xs) s ↔ InOneBlock addr leader time xs s := by
  constructor
  · rintro ⟨front, x, back, heq, hfront, hx, hcond⟩
    have hsplit : ∃ front', front = b ++ front' ∧ xs = front' ++ x :: back := by
      rcases List.append_eq_append_iff.mp heq with ⟨c, hc, hxs⟩ | ⟨c, hc, hxs⟩
      · exact ⟨c, hc, hxs⟩
      · cases c with
        | nil => exact ⟨[], by simpa using hc.symm, by simpa using hxs.symm⟩
        | cons y c =>
          -- the first element at or behind the point is not in the block
          obtain ⟨rfl, -⟩ := List.cons.inj (hxs.trans List.cons_append)
          have := hb x (by rw [hc]; exact List.mem_append_right front List.mem_cons_self)
          omega
    obtain ⟨front', rfl, rfl⟩ := hsplit
    refine ⟨front', x, back, rfl, fun y hy => hfront y (List.mem_append_right b hy), hx, ?_⟩
    split at hcond
    · rwa [if_pos ‹_›]
    · rw [if_neg ‹_›]
      refine ⟨?_, hcond.2⟩
      rintro rfl
      exact Bool.false_ne_true (hcond.2.symm.trans (hhead x rfl))
  · rintro ⟨front, x, back, rfl, hfront, hx, hcond⟩
    refine ⟨b ++ front, x, back, by simp, ?_, hx, ?_⟩
    · intro y hy
      rcases List.mem_append.mp hy with hy | hy
      · exact hb y hy
      · exact hfront y hy
    · split at hcond
      · rwa [if_pos ‹_›]
      · rw [if_neg ‹_›]
        exact ⟨by simp [hne], hcond.2⟩

/-- A point in the first block lies in no other block if the second block begins behind it. -/
theorem inOneBlock_cons_append {x : α} {b : List α}
    (hsorted : (x :: b ++ xs).Pairwise fun x y => time x ≤ time y)
    (hb : ∀ y ∈ b, leader (addr y) = false) (hhead : ∀ x ∈ xs.head?, leader (addr x) = true)
    (hfirst : time x ≤ s) (hlast : ∃ y ∈ x :: b, s ≤ time y) :
    InOneBlock addr leader time (x :: b ++ xs) s ↔ ∀ z ∈ xs.head?, s < time z := by
  obtain ⟨-, hsorted', hbetween⟩ := List.pairwise_append.mp hsorted
  constructor
  · rintro ⟨front, e, back, heq, hfront, he, hcond⟩ z hz
    by_contra hle
    have hzmem : z ∈ xs := List.mem_of_mem_head? hz
    -- the first element at or behind the point is in the block, and the second leader is behind it
    have hback : z ∈ back := by
      obtain ⟨y, hy, hsy⟩ := hlast
      have hout : ∀ c, front ≠ x :: b ++ c := by
        rintro c rfl
        have := hfront y (List.mem_append_left c hy)
        omega
      rcases List.append_eq_append_iff.mp heq with ⟨c, hc, -⟩ | ⟨c, hc, hxs⟩
      · exact absurd hc (hout c)
      · cases c with
        | nil => exact absurd (by simpa using hc.symm) (hout [])
        | cons e' c =>
          rw [(List.cons.inj hxs).2]
          exact List.mem_append_right c hzmem
    have hez : time e ≤ time z := by
      rw [heq] at hsorted
      exact (List.pairwise_cons.mp (List.pairwise_append.mp hsorted).2.1).1 z hback
    rw [if_pos (by omega)] at hcond
    exact Bool.false_ne_true ((hcond z hback (by omega)).symm.trans (hhead z hz))
  · intro hlater
    obtain ⟨front, e, back, heq, hfront, he⟩ := exists_first_ge hlast
    refine ⟨front, e, back ++ xs, by rw [heq]; simp, hfront, he, ?_⟩
    have hlater' : ∀ z ∈ xs, s < time z := by
      cases xs with
      | nil => simp
      | cons z xs =>
        have hz := hlater z rfl
        exact List.forall_mem_cons.mpr ⟨hz, fun y hy => hz.trans_le ((List.pairwise_cons.mp hsorted').1 y hy)⟩
    cases front with
    | nil =>
      obtain ⟨rfl, rfl⟩ := List.cons.inj heq
      rw [if_pos (by omega)]
      intro y hy hys
      rcases List.mem_append.mp hy with hy | hy
      · exact hb y hy
      · have := hlater' y hy
        omega
    | cons f front =>
      obtain ⟨-, rfl⟩ := List.cons.inj heq
      split
      · intro y hy hys
        rcases List.mem_append.mp hy with hy | hy
        · exact hb y (by simp [hy])
        · have := hlater' y hy
          omega
      · exact ⟨by simp, hb e (by simp)⟩

/-- **A point in time lies between the ends of exactly one block** of a sorted list if it `InOneBlock`. -/
theorem countP_blocks_eq_one_iff (addr : α → κ) (leader : κ → Bool) (s : ℕ) (xs : List α)
    (hsorted : xs.Pairwise fun x y => time x ≤ time y) :
    (blocks addr leader xs).countP (coversTime time s) = 1 ↔ InOneBlock addr leader time xs s := by
  induction hn : xs.length using Nat.strong_induction_on generalizing xs with
  | _ n ih =>
    cases xs with
    | nil => simp [InOneBlock, blocks]
    | cons x xs =>
      rw [blocks_cons]
      have hcut : x :: xs = x :: (xs.takeWhile fun y => !leader (addr y)) ++ xs.dropWhile fun y =>
          !leader (addr y) := by
        rw [List.cons_append, List.takeWhile_append_dropWhile]
      have hnone : ∀ y ∈ xs.takeWhile fun y => !leader (addr y), leader (addr y) = false := by
        intro y hy
        simpa using List.mem_takeWhile_imp hy
      have hhead : ∀ z ∈ (xs.dropWhile fun y => !leader (addr y)).head?, leader (addr z) = true := by
        intro z hz
        have hnot := List.head?_dropWhile_not (fun y => !leader (addr y)) xs
        rw [hz] at hnot
        simpa using hnot
      have hshorter : (xs.dropWhile fun y => !leader (addr y)).length < n := by
        rw [← hn, List.length_cons]
        exact Nat.lt_succ_of_le (List.dropWhile_sublist _).length_le
      rw [hcut] at hsorted ⊢
      generalize xs.takeWhile (fun y => !leader (addr y)) = b at *
      generalize xs.dropWhile (fun y => !leader (addr y)) = zs at *
      obtain ⟨hblock, hrest, hbetween⟩ := List.pairwise_append.mp hsorted
      have hlast : ∀ y ∈ x :: b, time y ≤ time ((x :: b).getLast (List.cons_ne_nil x b)) := fun y hy =>
        hblock.rel_getLast_of_rel_getLast_getLast hy le_rfl
      -- the point is behind the first block, before it or in it
      rcases Nat.lt_or_ge (time ((x :: b).getLast (List.cons_ne_nil x b))) s with hbehind | hle
      · rw [List.countP_cons_of_neg (by rw [coversTime_cons]; omega), ih _ hshorter zs hrest rfl]
        exact (inOneBlock_append_of_lt (List.cons_ne_nil x b)
          (fun y hy => (hlast y hy).trans_lt hbehind) hhead).symm
      · rcases Nat.lt_or_ge s (time x) with hbefore | hfirst
        · have hlater : ∀ y ∈ x :: b ++ zs, s < time y :=
            List.forall_mem_cons.mpr
              ⟨hbefore, fun y hy => hbefore.trans_le ((List.pairwise_cons.mp hsorted).1 y hy)⟩
          rw [List.countP_cons_of_neg (by rw [coversTime_cons]; omega),
            countP_blocks_eq_zero fun z hz => hlater z (List.mem_append_right _ hz)]
          exact ⟨fun h => absurd h Nat.zero_ne_one, fun h => absurd h (not_inOneBlock hlater)⟩
        · rw [List.countP_cons_of_pos ((coversTime_cons x b).mpr ⟨hfirst, hle⟩), Nat.add_eq_right,
            inOneBlock_cons_append hsorted hnone hhead hfirst ⟨_, List.getLast_mem _, hle⟩]
          exact countP_blocks_eq_zero_iff hrest fun z hz => hle.trans (hbetween _ (List.getLast_mem _) z hz)

end Times

end FailStar
