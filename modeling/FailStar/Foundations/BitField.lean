import Mathlib.Tactic

/-! # Bit fields

A field is a run of consecutive bits of a word, given by a mask that is built with shifts. Its value is read by
masking and shifting down, and written by clearing the field and inserting the value shifted up.

* **`fieldMask`** — the mask of a field; **`fieldGet`**, **`fieldSet`** — reading and writing.
* **`getLsbD_fieldMask`** — the bits of the mask, which are right even for a field as wide as the word.
* **`getLsbD_fieldSet_xor`** — reading a field, changing some bits of the value, and writing it back changes just
  these bits of the word.
* **`maskedWrite`** — writing a word of which only some bits are stored. -/

namespace FailStar

variable {w : ℕ}

/-- The mask of the `width` bits from `offset` on. -/
def fieldMask (w width offset : ℕ) : BitVec w := ((1#w <<< width) - 1#w) <<< offset

/-- The value of a field. -/
def fieldGet (x mask : BitVec w) (offset : ℕ) : BitVec w := (x &&& mask) >>> offset

/-- The word with another value in the field. -/
def fieldSet (x mask : BitVec w) (offset : ℕ) (value : BitVec w) : BitVec w :=
  ((value <<< offset) &&& mask) ||| (x &&& ~~~mask)

/-- `2 ^ width - 1`, also where the power does not fit into the word. -/
theorem getLsbD_lowMask (width i : ℕ) :
    ((1#w <<< width) - 1#w).getLsbD i = (decide (i < w) && decide (i < width)) := by
  by_cases hwidth : width < w
  · have hpow : 1#w <<< width - 1#w = BitVec.ofNat w (2 ^ width - 1) := by
      apply BitVec.eq_of_toNat_eq
      have hlt : 2 ^ width < 2 ^ w := Nat.pow_lt_pow_right (by decide) hwidth
      have hone : 1 < 2 ^ w := lt_of_le_of_lt Nat.one_le_two_pow hlt
      have hle : 1#w ≤ 1#w <<< width := by
        rw [BitVec.le_def, BitVec.toNat_shiftLeft, BitVec.toNat_ofNat, Nat.mod_eq_of_lt hone, Nat.one_shiftLeft,
          Nat.mod_eq_of_lt hlt]
        exact Nat.one_le_two_pow
      rw [BitVec.toNat_sub_of_le hle, BitVec.toNat_shiftLeft, BitVec.toNat_ofNat, BitVec.toNat_ofNat,
        Nat.mod_eq_of_lt hone, Nat.one_shiftLeft, Nat.mod_eq_of_lt hlt, Nat.mod_eq_of_lt (by omega)]
    rw [hpow, BitVec.getLsbD_ofNat, Nat.testBit_two_pow_sub_one]
  · -- the one has been shifted out, and the difference is the word of all ones
    have hzero : 1#w <<< width = 0#w := BitVec.shiftLeft_eq_zero (Nat.not_lt.mp hwidth)
    rw [hzero, BitVec.zero_sub, BitVec.neg_one_eq_allOnes, BitVec.getLsbD_allOnes]
    by_cases hi : i < w
    · simp [hi, lt_of_lt_of_le hi (Nat.not_lt.mp hwidth)]
    · simp [hi]

theorem getLsbD_fieldMask (width offset i : ℕ) :
    (fieldMask w width offset).getLsbD i = decide (i < w ∧ offset ≤ i ∧ i < offset + width) := by
  rw [fieldMask, BitVec.getLsbD_shiftLeft, getLsbD_lowMask, Bool.eq_iff_iff]
  simp only [Bool.and_eq_true, Bool.not_eq_true', decide_eq_true_eq, decide_eq_false_iff_not]
  omega

theorem getLsbD_fieldGet (x mask : BitVec w) (offset i : ℕ) :
    (fieldGet x mask offset).getLsbD i = (x.getLsbD (offset + i) && mask.getLsbD (offset + i)) := by
  rw [fieldGet, BitVec.getLsbD_ushiftRight, BitVec.getLsbD_and]

theorem getLsbD_fieldSet (x mask value : BitVec w) (offset i : ℕ) :
    (fieldSet x mask offset value).getLsbD i =
      if mask.getLsbD i = true then decide (offset ≤ i) && value.getLsbD (i - offset) else x.getLsbD i := by
  by_cases hi : i < w
  · rw [fieldSet, BitVec.getLsbD_or, BitVec.getLsbD_and, BitVec.getLsbD_and, BitVec.getLsbD_shiftLeft,
      BitVec.getLsbD_not]
    have hoffset : decide (i < offset) = !decide (offset ≤ i) := by
      rw [← decide_not, decide_eq_decide, Nat.not_le]
    rw [hoffset, decide_eq_true hi]
    generalize mask.getLsbD i = m
    cases m with
    | false => simp
    | true => simp
  · -- neither word has a bit there
    have hge := Nat.not_lt.mp hi
    rw [BitVec.getLsbD_of_ge _ _ hge, BitVec.getLsbD_of_ge _ _ hge, BitVec.getLsbD_of_ge _ _ hge,
      if_neg Bool.false_ne_true]

/-- **Read, change and write back**: a bit changes if it is in the field, and the change says so. -/
theorem getLsbD_fieldSet_xor (x change : BitVec w) (width offset i : ℕ) :
    (fieldSet x (fieldMask w width offset) offset
      (fieldGet x (fieldMask w width offset) offset ^^^ change)).getLsbD i =
      (x.getLsbD i ^^
        (decide (offset ≤ i ∧ i < offset + width) && change.getLsbD (i - offset) && decide (i < w))) := by
  rw [getLsbD_fieldSet, getLsbD_fieldMask]
  by_cases hfield : i < w ∧ offset ≤ i ∧ i < offset + width
  · have hback : offset + (i - offset) = i := by omega
    rw [if_pos (decide_eq_true hfield), BitVec.getLsbD_xor, getLsbD_fieldGet, hback, getLsbD_fieldMask]
    simp [hfield.1, hfield.2.1, hfield.2.2]
  · rw [if_neg (by simpa using hfield)]
    by_cases hi : i < w
    · have hnot : ¬(offset ≤ i ∧ i < offset + width) := fun h => hfield ⟨hi, h⟩
      simp [hnot]
    · simp [hi]

/-- The word with the bits of a mask from another one. -/
def maskedWrite (x mask value : BitVec w) : BitVec w := (x &&& ~~~mask) ||| (value &&& mask)

theorem getLsbD_maskedWrite (x mask value : BitVec w) (i : ℕ) :
    (maskedWrite x mask value).getLsbD i = if mask.getLsbD i = true then value.getLsbD i else x.getLsbD i := by
  rw [maskedWrite, BitVec.getLsbD_or, BitVec.getLsbD_and, BitVec.getLsbD_and, BitVec.getLsbD_not]
  by_cases hi : i < w
  · cases mask.getLsbD i <;> simp [hi]
  · simp [BitVec.getLsbD_of_ge _ _ (Nat.not_lt.mp hi)]

@[simp] theorem maskedWrite_allOnes (x value : BitVec w) : maskedWrite x (BitVec.allOnes w) value = value := by
  rw [maskedWrite, BitVec.not_allOnes, BitVec.and_zero, BitVec.zero_or, BitVec.and_allOnes]

end FailStar
