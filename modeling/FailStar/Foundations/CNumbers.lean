import FailStar.Foundations.Numerals

/-! # Numbers in C notation

A number in C notation is decimal, octal with a leading zero, or hexadecimal behind `0x`.

* **`CNumber`** — the text of a number, and its value.
* **`strtoul_of_cNumber`** — what the C function with base 0 makes of it: the value, or the largest
  `unsigned long`. -/

namespace FailStar

/-- **A number in C notation.** -/
inductive CNumber : List Char → ℕ → Prop
  | decimal {c : Char} {cs : List Char} (hne : c ≠ '0') (hcs : ∀ d ∈ c :: cs, isDigit 10 d = true) :
      CNumber (c :: cs) (valueOf 10 (c :: cs))
  | octal {cs : List Char} (hcs : ∀ d ∈ cs, isDigit 8 d = true) : CNumber ('0' :: cs) (valueOf 8 ('0' :: cs))
  | hexadecimal {x : Char} {cs : List Char} (hx : x = 'x' ∨ x = 'X') (hne : cs ≠ [])
      (hcs : ∀ d ∈ cs, isDigit 16 d = true) : CNumber ('0' :: x :: cs) (valueOf 16 cs)

variable {cs : List Char} {n b : ℕ} {c : Char}

theorem isSpace_of_isDigit (h : isDigit b c = true) : isSpace c = false := by
  by_contra hspace
  rw [isDigit_of_isSpace (by simpa using hspace) b] at h
  cases h

theorem CNumber.ne_nil (h : CNumber cs n) : cs ≠ [] := by
  cases h with
  | decimal => exact List.cons_ne_nil _ _
  | octal => exact List.cons_ne_nil _ _
  | hexadecimal => exact List.cons_ne_nil _ _

theorem CNumber.isSpace (h : CNumber cs n) : ∀ c ∈ cs, isSpace c = false := by
  cases h with
  | decimal _ hcs => exact fun c hc => isSpace_of_isDigit (hcs c hc)
  | octal hcs => exact List.forall_mem_cons.mpr ⟨by decide, fun c hc => isSpace_of_isDigit (hcs c hc)⟩
  | hexadecimal hx _ hcs =>
    refine List.forall_mem_cons.mpr
      ⟨by decide, List.forall_mem_cons.mpr ⟨?_, fun c hc => isSpace_of_isDigit (hcs c hc)⟩⟩
    rcases hx with rfl | rfl
    · decide
    · decide

theorem splitSign_of_isDigit (h : isDigit b c = true) (cs : List Char) :
    splitSign (c :: cs) = (false, c :: cs) := by
  have hne : ∀ s, isDigit b s = false → c ≠ s := by
    rintro s hs rfl
    rw [hs] at h
    cases h
  exact splitSign.eq_3 _ (fun _ heq => hne '-' rfl (List.cons.inj heq).1) fun _ heq =>
    hne '+' rfl (List.cons.inj heq).1

theorem scanNumber_of_digits (h : ∀ c ∈ cs, isDigit b c = true) : scanNumber b cs = (valueOf b cs, []) := by
  have hend : ∀ c ∈ ([] : List Char).head?, isDigit b c = false := by simp
  obtain ⟨htake, hdrop⟩ := takeWhile_append_of_all h hend
  rw [List.append_nil] at htake hdrop
  rw [scanNumber, htake, hdrop]

theorem CNumber.scanNumber (h : CNumber cs n) :
    (FailStar.scanNumber (splitBase cs).1 (splitBase cs).2).1 = n := by
  cases h with
  | @decimal c cs hne hcs =>
    have hbase : splitBase (c :: cs) = (10, c :: cs) :=
      splitBase.eq_3 _ (fun _ _ _ heq => hne (List.cons.inj heq).1) fun _ heq => hne (List.cons.inj heq).1
    rw [hbase, scanNumber_of_digits hcs]
  | @octal cs hcs =>
    have hbase : splitBase ('0' :: cs) = (8, '0' :: cs) := by
      rcases cs with _ | ⟨x, _ | ⟨d, cs⟩⟩
      · rfl
      · rfl
      · have hx : ¬((x = 'x' ∨ x = 'X') ∧ isDigit 16 d = true) := by
          have hdigit := hcs x List.mem_cons_self
          rintro ⟨rfl | rfl, -⟩
          · exact absurd hdigit (by decide)
          · exact absurd hdigit (by decide)
        rw [splitBase, if_neg hx]
    have hall : ∀ d ∈ '0' :: cs, isDigit 8 d = true := List.forall_mem_cons.mpr ⟨by decide, hcs⟩
    rw [hbase, scanNumber_of_digits hall]
  | @hexadecimal x cs hx hne hcs =>
    obtain ⟨d, ds, rfl⟩ := List.exists_cons_of_ne_nil hne
    have hbase : splitBase ('0' :: x :: d :: ds) = (16, d :: ds) := by
      rw [splitBase, if_pos ⟨hx, hcs d List.mem_cons_self⟩]
    rw [hbase, scanNumber_of_digits hcs]

theorem CNumber.splitSign (h : CNumber cs n) : FailStar.splitSign cs = (false, cs) := by
  cases h with
  | decimal _ hcs => exact splitSign_of_isDigit (hcs _ List.mem_cons_self) _
  | octal => exact splitSign_of_isDigit (b := 8) (by decide) _
  | hexadecimal => exact splitSign_of_isDigit (b := 8) (by decide) _

/-- **Reading a number in C notation**: a number that is too large becomes the largest one. -/
theorem strtoul_of_cNumber (h : CNumber cs n) : strtoul cs = min n (2 ^ 64 - 1) := by
  have hspace : cs.dropWhile isSpace = cs := by
    obtain ⟨c, cs, rfl⟩ := List.exists_cons_of_ne_nil h.ne_nil
    exact List.dropWhile_cons_of_neg (by simp [h.isSpace c List.mem_cons_self])
  rw [strtoul, hspace, h.splitSign]
  dsimp only
  rw [h.scanNumber]
  split
  · omega
  · rw [if_neg Bool.false_ne_true]
    omega

end FailStar
