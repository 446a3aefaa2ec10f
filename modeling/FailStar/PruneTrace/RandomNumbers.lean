import FailStar.Foundations.LowBits
import FailStar.PruneTrace.SamplingPruner

/-! # Random numbers of the sampling pruners

`my_rand` masks a random word with as many bits as the limit has, and draws again while the result exceeds the
limit. It finds this number of bits by shifting the limit to the right until nothing is left. From `2 ^ 63` on, a
limit has 64 bits, and the loop shifts a 64-bit number by 64.

* **`bitposFrom`** — the loop that counts the bits. It yields `bitpos` (`bitposFrom_eq_bitpos`).
* **`draw`** — what becomes of one random word.
* **`UniformUpTo`** — what `my_rand` is for: all numbers up to the limit are equally likely.
* **`uniformUpTo_iff`** — this is so exactly for the limits below `2 ^ 63`. -/

namespace FailStar.PruneTrace

/-! ## Counting the bits -/

/-- `limit >> bitpos`, for a number of 64 bits. Only shifts by less than 64 are defined. -/
def shiftRight64 (limit bitpos : ℕ) : Option ℕ := if bitpos < 64 then some (limit >>> bitpos) else none

/-- **The loop** `while (limit >> bitpos) bitpos++`. -/
def bitposFrom (limit bitpos : ℕ) : Option ℕ :=
  match hshift : shiftRight64 limit bitpos with
  | none => none
  | some 0 => some bitpos
  | some (_ + 1) => bitposFrom limit (bitpos + 1)
termination_by 64 - bitpos
decreasing_by
  have hlt : bitpos < 64 := by
    by_contra hge
    rw [shiftRight64, if_neg hge] at hshift
    cases hshift
  omega

variable {limit b : ℕ}

theorem bitposFrom_of_le (h : 64 ≤ b) : bitposFrom limit b = none := by
  have hshift : shiftRight64 limit b = none := if_neg (Nat.not_lt.mpr h)
  rw [bitposFrom]
  split
  · rfl
  · simp_all
  · simp_all

theorem bitposFrom_of_lt (h : b < 64) :
    bitposFrom limit b = if limit >>> b = 0 then some b else bitposFrom limit (b + 1) := by
  have hshift : shiftRight64 limit b = some (limit >>> b) := if_pos h
  rw [bitposFrom]
  split
  · simp_all
  · rename_i hzero
    rw [hshift, Option.some.injEq] at hzero
    rw [if_pos hzero]
  · rename_i r hsucc
    rw [hshift, Option.some.injEq] at hsucc
    rw [if_neg (by omega)]

/-- The loop finds the first position from `b` on at which nothing is left of the limit. -/
theorem bitposFrom_eq_find (hb : b ≤ 64) :
    bitposFrom limit b = (List.range' b (64 - b)).find? fun i => limit >>> i = 0 := by
  induction hn : 64 - b generalizing b with
  | zero =>
    rw [bitposFrom_of_le (by omega)]
    rfl
  | succ n ih =>
    rw [bitposFrom_of_lt (by omega), List.range'_succ, List.find?_cons, ih (by omega) (by omega)]
    by_cases hzero : limit >>> b = 0
    · simp [hzero]
    · simp [hzero]

theorem bitposFrom_eq_bitpos (limit : ℕ) : bitposFrom limit 0 = bitpos limit := by
  rw [bitposFrom_eq_find (Nat.zero_le _), bitpos, List.range_eq_range']

/-- **What the loop finds** is the smallest number of bits that the limit fits into. -/
theorem isLeast_of_bitpos (h : bitpos limit = some b) : b < 64 ∧ IsLeast {i | limit < 2 ^ i} b := by
  have hfits : ∀ i, limit >>> i = 0 ↔ limit < 2 ^ i := by
    intro i
    rw [Nat.shiftRight_eq_div_pow, Nat.div_eq_zero_iff_lt (Nat.two_pow_pos i)]
  obtain ⟨hzero, front, back, hrange, hfront⟩ := List.find?_eq_some_iff_append.mp h
  have hmem : b ∈ List.range 64 := by simp [hrange]
  refine ⟨List.mem_range.mp hmem, (hfits b).mp (of_decide_eq_true hzero), fun i hi => ?_⟩
  by_contra hlt
  have hi' : i ∈ front := by
    -- the positions are in order, and what is behind `b` is larger
    have hsorted : (front ++ b :: back).Pairwise (· < ·) := hrange ▸ List.pairwise_lt_range
    have hall : i ∈ front ++ b :: back := by
      rw [← hrange, List.mem_range]
      have := List.mem_range.mp hmem
      omega
    rcases List.mem_append.mp hall with hfrontmem | hback
    · exact hfrontmem
    · rcases List.mem_cons.mp hback with rfl | hback
      · omega
      · have := (List.pairwise_cons.mp (List.pairwise_append.mp hsorted).2.1).1 i hback
        omega
  have hnot := hfront i hi'
  simp [hfits i, show limit < 2 ^ i from hi] at hnot

/-! ## One random word -/

/-- What becomes of a random word: the number that is returned, unless it exceeds the limit. -/
def draw (limit word : ℕ) : Option ℕ :=
  (bitpos limit).bind fun bitpos =>
    let retval := word &&& (2 ^ bitpos - 1)
    if retval > limit then none else some retval

theorem draw_eq_some (hb : bitpos limit = some b) {word v : ℕ} :
    draw limit word = some v ↔ word % 2 ^ b = v ∧ v ≤ limit := by
  rw [draw, hb, Option.bind_some]
  dsimp only
  rw [Nat.and_two_pow_sub_one_eq_mod]
  split
  · rename_i hgt
    refine iff_of_false (by simp) ?_
    rintro ⟨rfl, hle⟩
    omega
  · rename_i hle
    rw [Option.some.injEq]
    refine ⟨fun h => ⟨h, ?_⟩, fun h => h.1⟩
    omega

/-! ## Uniformity -/

/-- All words of `/dev/urandom`. -/
def allWords : Finset ℕ := Finset.range (2 ^ 64)

/-- **The numbers up to the limit are equally likely.** -/
structure UniformUpTo (limit : ℕ) : Prop where
  /-- The loop ends, all its shifts are defined, and it finds the smallest number of bits. -/
  bits : ∃ b, bitposFrom limit 0 = some b ∧ IsLeast {i | limit < 2 ^ i} b
  /-- Nothing else is returned. -/
  le : ∀ urandom retval rest, myRand limit urandom = some (retval, rest) → retval ≤ limit
  /-- At least every other word is accepted. -/
  likely : allWords.card ≤ 2 * (allWords.filter fun word => (draw limit word).isSome).card
  /-- Every number is returned for the same number of words. -/
  uniform : ∃ count, ∀ v ≤ limit, (allWords.filter fun word => draw limit word = some v).card = count

/-- The words for which a number up to the limit is returned. -/
theorem card_draw_eq (hb : bitpos limit = some b) {v : ℕ} (hv : v ≤ limit) :
    (allWords.filter fun word => draw limit word = some v).card = 2 ^ (64 - b) := by
  obtain ⟨hlt, hfits, -⟩ := isLeast_of_bitpos hb
  have hwords : (allWords.filter fun word => draw limit word = some v) = wordsEndingIn 64 b {v} := by
    refine Finset.filter_congr fun word _ => ?_
    rw [draw_eq_some hb, Finset.mem_singleton, and_iff_left hv]
  have hsmall : ∀ u ∈ ({v} : Finset ℕ), u < 2 ^ b := by
    intro u hu
    rw [Finset.mem_singleton.mp hu]
    exact hv.trans_lt hfits
  rw [hwords, card_words hlt.le hsmall, Finset.card_singleton, Nat.mul_one]

theorem card_accepted (hb : bitpos limit = some b) :
    (allWords.filter fun word => (draw limit word).isSome).card = 2 ^ (64 - b) * (limit + 1) := by
  obtain ⟨hlt, hfits, -⟩ := isLeast_of_bitpos hb
  have hwords : (allWords.filter fun word => (draw limit word).isSome) =
      wordsEndingIn 64 b (Finset.range (limit + 1)) := by
    refine Finset.filter_congr fun word _ => ?_
    rw [Option.isSome_iff_exists, Finset.mem_range, Nat.lt_succ_iff]
    constructor
    · rintro ⟨v, hv⟩
      obtain ⟨rfl, hle⟩ := (draw_eq_some hb).mp hv
      exact hle
    · intro hle
      exact ⟨_, (draw_eq_some hb).mpr ⟨rfl, hle⟩⟩
  have hsmall : ∀ u ∈ Finset.range (limit + 1), u < 2 ^ b := by
    intro u hu
    exact (Nat.le_of_lt_succ (Finset.mem_range.mp hu)).trans_lt hfits
  rw [hwords, card_words hlt.le hsmall, Finset.card_range]

/-- The limit has a bit at the top, so that it exceeds half of the numbers it is compared with. -/
theorem two_pow_le_double (hb : bitpos limit = some b) : 2 ^ b ≤ 2 * (limit + 1) := by
  obtain ⟨-, -, hleast⟩ := isLeast_of_bitpos hb
  cases b with
  | zero => omega
  | succ b =>
    have hge : 2 ^ b ≤ limit := by
      by_contra hlt
      have := hleast (Nat.not_le.mp hlt)
      omega
    rw [Nat.pow_succ]
    omega

theorem uniformUpTo_of_bitpos (hb : bitpos limit = some b) : UniformUpTo limit where
  bits := ⟨b, (bitposFrom_eq_bitpos limit).trans hb, (isLeast_of_bitpos hb).2⟩
  le _ _ _ h := myRand_le h
  likely := by
    have hlt := (isLeast_of_bitpos hb).1
    rw [card_accepted hb, allWords, Finset.card_range]
    calc 2 ^ 64 = 2 ^ (64 - b) * 2 ^ b := by rw [← Nat.pow_add, Nat.sub_add_cancel hlt.le]
      _ ≤ 2 ^ (64 - b) * (2 * (limit + 1)) := Nat.mul_le_mul_left _ (two_pow_le_double hb)
      _ = 2 * (2 ^ (64 - b) * (limit + 1)) := by ring
  uniform := ⟨2 ^ (64 - b), fun _ hv => card_draw_eq hb hv⟩

/-- **`my_rand` is uniform exactly for the limits below `2 ^ 63`.** For the other ones, the limit is shifted by
64. -/
theorem uniformUpTo_iff (limit : ℕ) : UniformUpTo limit ↔ limit < 2 ^ 63 := by
  constructor
  · intro h
    obtain ⟨b, hb, -⟩ := h.bits
    rw [bitposFrom_eq_bitpos] at hb
    exact isSome_bitpos_iff.mp (by rw [hb]; rfl)
  · intro h
    obtain ⟨b, hb⟩ := exists_bitpos h
    exact uniformUpTo_of_bitpos hb

/-- The smallest limit for which a shift is undefined: nothing is drawn at all. -/
theorem half_range_is_not_uniform :
    bitposFrom (2 ^ 63) 0 = none ∧ (∀ urandom, myRand (2 ^ 63) urandom = none) ∧ ¬ UniformUpTo (2 ^ 63) := by
  have hnone : bitpos (2 ^ 63) = none := by decide
  refine ⟨(bitposFrom_eq_bitpos _).trans hnone, fun urandom => ?_, fun h => ?_⟩
  · rw [myRand, hnone, Option.bind_none]
  · obtain ⟨b, hb, -⟩ := h.bits
    rw [bitposFrom_eq_bitpos, hnone] at hb
    cases hb

end FailStar.PruneTrace
