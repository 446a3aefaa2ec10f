import Mathlib.Data.Finset.Prod
import Mathlib.Tactic

/-! # The lower bits of random words

All words of `n` bits are equally likely. The lower `b` bits of a word are then uniformly distributed: as many
words end with one pattern as with any other.

* **`card_words`** — how many words end with a pattern of a given set. -/

namespace FailStar

/-- The words of `n` bits whose lower `b` bits are a number of the set `s`. -/
def wordsEndingIn (n b : ℕ) (s : Finset ℕ) : Finset ℕ :=
  (Finset.range (2 ^ n)).filter fun word => word % 2 ^ b ∈ s

variable {n b : ℕ} {s : Finset ℕ}

/-- **The words that end with a pattern of a set**: every pattern has the same number of upper bits in front of
it. -/
theorem card_words (hb : b ≤ n) (hs : ∀ v ∈ s, v < 2 ^ b) :
    (wordsEndingIn n b s).card = 2 ^ (n - b) * s.card := by
  have hpos : 0 < 2 ^ b := Nat.two_pow_pos b
  have hsplit : 2 ^ n = 2 ^ b * 2 ^ (n - b) := by rw [← Nat.pow_add, Nat.add_sub_cancel' hb]
  have hcard : ((Finset.range (2 ^ (n - b))) ×ˢ s).card = (wordsEndingIn n b s).card := by
    -- a word consists of its upper and its lower bits
    refine Finset.card_nbij' (fun x => 2 ^ b * x.1 + x.2) (fun word => (word / 2 ^ b, word % 2 ^ b)) ?_ ?_ ?_ ?_
    · rintro ⟨q, v⟩ hx
      obtain ⟨hq, hv⟩ := Finset.mem_product.mp hx
      have hlt := hs v hv
      have hmod : (2 ^ b * q + v) % 2 ^ b = v := by rw [Nat.mul_add_mod, Nat.mod_eq_of_lt hlt]
      refine Finset.mem_filter.mpr ⟨Finset.mem_range.mpr ?_, by rwa [hmod]⟩
      calc 2 ^ b * q + v < 2 ^ b * q + 2 ^ b := Nat.add_lt_add_left hlt _
        _ = 2 ^ b * (q + 1) := (Nat.mul_succ _ _).symm
        _ ≤ 2 ^ b * 2 ^ (n - b) := Nat.mul_le_mul_left _ (Finset.mem_range.mp hq)
        _ = 2 ^ n := hsplit.symm
    · intro word hword
      obtain ⟨hrange, hv⟩ := Finset.mem_filter.mp hword
      have hlt : word / 2 ^ b < 2 ^ (n - b) := by
        apply Nat.div_lt_of_lt_mul
        rw [← hsplit]
        exact Finset.mem_range.mp hrange
      exact Finset.mem_product.mpr ⟨Finset.mem_range.mpr hlt, hv⟩
    · rintro ⟨q, v⟩ hx
      have hlt := hs v (Finset.mem_product.mp hx).2
      refine Prod.ext ?_ ?_
      · show (2 ^ b * q + v) / 2 ^ b = q
        rw [Nat.mul_add_div hpos, Nat.div_eq_of_lt hlt, Nat.add_zero]
      · show (2 ^ b * q + v) % 2 ^ b = v
        rw [Nat.mul_add_mod, Nat.mod_eq_of_lt hlt]
    · intro word _
      exact Nat.div_add_mod word (2 ^ b)
  rw [← hcard, Finset.card_product, Finset.card_range]

end FailStar
