import Mathlib.Data.Nat.Digits.Lemmas
import Mathlib.Data.List.TakeWhile
import Mathlib.Tactic

/-! # Numbers in text

Numbers are written to text files as numerals, and read back by functions of the C and C++ libraries.

* **`numeral b n`** — the digits of a number, most significant first; **`valueOf`** — the number of some digits
  (`valueOf_numeral`).
* **`scanNumber`** — the longest run of digits at the front of a text; it finds a numeral (`scanNumber_numeral`).
* **`getlines`**, **`nextWord`** — lines and words of a text.
* **`strtoul`** — the C function with base 0; it reads a decimal numeral (`strtoul_numeral`). -/

namespace FailStar

/-! ## Digits -/

/-- The value of a digit, in bases up to 16. -/
def digitValue (c : Char) : Option ℕ :=
  if '0' ≤ c ∧ c ≤ '9' then some (c.toNat - '0'.toNat)
  else if 'a' ≤ c ∧ c ≤ 'f' then some (c.toNat - 'a'.toNat + 10)
  else if 'A' ≤ c ∧ c ≤ 'F' then some (c.toNat - 'A'.toNat + 10)
  else none

/-- A digit in the base `b`. -/
def isDigit (b : ℕ) (c : Char) : Bool := (digitValue c).any fun d => d < b

/-- The number of some digits. -/
def valueOf (b : ℕ) (cs : List Char) : ℕ := cs.foldl (fun n c => n * b + (digitValue c).getD 0) 0

/-- **The numeral of a number** in the base `b`, without leading zeros and in lower case. -/
def numeral (b n : ℕ) : List Char := if n = 0 then ['0'] else ((Nat.digits b n).map Nat.digitChar).reverse

/-- White space. -/
def isSpace (c : Char) : Bool := c ∈ [' ', '\t', '\n', '\x0b', '\x0c', '\r']

variable {b n d : ℕ} {c : Char} {rest : List Char}

theorem digitValue_digitChar (h : d < 16) : digitValue (Nat.digitChar d) = some d := by
  have hall : ∀ e ∈ List.range 16, digitValue (Nat.digitChar e) = some e := by decide
  exact hall d (List.mem_range.mpr h)

theorem digitChar_ne_sign (h : d < 16) : Nat.digitChar d ≠ '-' ∧ Nat.digitChar d ≠ '+' := by
  have hall : ∀ e ∈ List.range 16, Nat.digitChar e ≠ '-' ∧ Nat.digitChar e ≠ '+' := by decide
  exact hall d (List.mem_range.mpr h)

theorem isSpace_digitChar (h : d < 16) : isSpace (Nat.digitChar d) = false := by
  have hall : ∀ e ∈ List.range 16, isSpace (Nat.digitChar e) = false := by decide
  exact hall d (List.mem_range.mpr h)

theorem isDigit_of_isSpace (h : isSpace c = true) (b : ℕ) : isDigit b c = false := by
  -- over the list, as deciding it for every character would enumerate all characters
  have hall : [' ', '\t', '\n', '\x0b', '\x0c', '\r'].all (fun c => digitValue c = none) = true := by decide
  have hnone : digitValue c = none := of_decide_eq_true (List.all_eq_true.mp hall c (of_decide_eq_true h))
  rw [isDigit, hnone]
  rfl

theorem exists_digit_of_numeral (hb : 1 < b) (hc : c ∈ numeral b n) : ∃ d < b, c = Nat.digitChar d := by
  rw [numeral] at hc
  split at hc
  · exact ⟨0, by omega, List.mem_singleton.mp hc⟩
  · obtain ⟨d, hd, rfl⟩ := List.mem_map.mp (List.mem_reverse.mp hc)
    exact ⟨d, Nat.digits_lt_base hb hd, rfl⟩

theorem isDigit_of_numeral (hb : 1 < b) (hb' : b ≤ 16) (hc : c ∈ numeral b n) : isDigit b c = true := by
  obtain ⟨d, hd, rfl⟩ := exists_digit_of_numeral hb hc
  rw [isDigit, digitValue_digitChar (by omega)]
  simpa using hd

theorem isSpace_of_numeral (hb : 1 < b) (hb' : b ≤ 16) (hc : c ∈ numeral b n) : isSpace c = false := by
  obtain ⟨d, hd, rfl⟩ := exists_digit_of_numeral hb hc
  exact isSpace_digitChar (by omega)

theorem numeral_ne_nil (b n : ℕ) : numeral b n ≠ [] := by
  rw [numeral]
  split
  · exact List.cons_ne_nil _ _
  · rename_i h
    rw [Ne, List.reverse_eq_nil_iff, List.map_eq_nil_iff]
    exact Nat.digits_ne_nil_iff_ne_zero.mpr h

/-- **The number of a numeral.** -/
theorem valueOf_numeral (hb : 1 < b) (hb' : b ≤ 16) (n : ℕ) : valueOf b (numeral b n) = n := by
  rw [valueOf, numeral]
  split
  · rename_i h
    rw [h, List.foldl_cons, List.foldl_nil, Nat.zero_mul]
    rfl
  · rw [List.foldl_reverse, List.foldr_map]
    calc (Nat.digits b n).foldr (fun d n => n * b + (digitValue (Nat.digitChar d)).getD 0) 0
        = (Nat.digits b n).foldr (fun d n => d + b * n) 0 := by
          refine List.foldr_ext _ _ _ fun d hd n => ?_
          have := Nat.digits_lt_base hb hd
          rw [digitValue_digitChar (by omega), Option.getD_some, Nat.mul_comm, Nat.add_comm]
      _ = Nat.ofDigits b (Nat.digits b n) := by rw [Nat.ofDigits_eq_foldr]; rfl
      _ = n := Nat.ofDigits_digits b n

/-! ## Reading numbers -/

/-- The number at the front of a text, and the text behind it. -/
def scanNumber (b : ℕ) (cs : List Char) : ℕ × List Char :=
  (valueOf b (cs.takeWhile (isDigit b)), cs.dropWhile (isDigit b))

/-- A run of characters, up to the first one that is different. -/
theorem takeWhile_append_of_all {p : Char → Bool} {cs : List Char} (hcs : ∀ c ∈ cs, p c = true)
    (hrest : ∀ c ∈ rest.head?, p c = false) :
    (cs ++ rest).takeWhile p = cs ∧ (cs ++ rest).dropWhile p = rest := by
  rw [List.takeWhile_append_of_pos hcs, List.dropWhile_append_of_pos hcs]
  cases rest with
  | nil => simp
  | cons c rest =>
    have hc : ¬p c = true := by simpa using hrest c rfl
    rw [List.takeWhile_cons_of_neg hc, List.dropWhile_cons_of_neg hc, List.append_nil]
    exact ⟨rfl, rfl⟩

/-- **Reading back a numeral.** -/
theorem scanNumber_numeral (hb : 1 < b) (hb' : b ≤ 16) (n : ℕ) (hrest : ∀ c ∈ rest.head?, isDigit b c = false) :
    scanNumber b (numeral b n ++ rest) = (n, rest) := by
  obtain ⟨htake, hdrop⟩ := takeWhile_append_of_all (fun c hc => isDigit_of_numeral hb hb' hc) hrest
  rw [scanNumber, htake, hdrop, valueOf_numeral hb hb']

theorem head_numeral_ne_zero (hb : 1 < b) (hb' : b ≤ 16) (hn : n ≠ 0) : ∀ c ∈ (numeral b n).head?, c ≠ '0' := by
  intro c hc hzero
  rw [numeral, if_neg hn, List.head?_reverse, List.getLast?_map, Option.mem_def, Option.map_eq_some_iff] at hc
  obtain ⟨d, hd, hc⟩ := hc
  have hne : Nat.digits b n ≠ [] := Nat.digits_ne_nil_iff_ne_zero.mpr hn
  have hlast := Nat.getLast_digit_ne_zero b hn
  rw [List.getLast?_eq_some_getLast hne, Option.some.injEq] at hd
  have hlt := Nat.digits_lt_base hb (List.getLast_mem hne)
  have hvalue := digitValue_digitChar (show d < 16 by omega)
  rw [hc, hzero] at hvalue
  have hd0 : d = 0 := (Option.some.inj hvalue).symm
  omega

/-! ## Lines and words -/

/-- **The lines of a text**, as a loop with `getline` reads them. -/
def getlines : List Char → List (List Char)
  | [] => []
  | c :: cs =>
    if c = '\n' then [] :: getlines cs
    else
      match getlines cs with
      | [] => [[c]]
      | line :: lines => (c :: line) :: lines

theorem getlines_append_newline {line : List Char} (hline : ∀ c ∈ line, c ≠ '\n') (rest : List Char) :
    getlines (line ++ '\n' :: rest) = line :: getlines rest := by
  induction line with
  | nil => rw [List.nil_append, getlines, if_pos rfl]
  | cons c line ih =>
    obtain ⟨hc, hline⟩ := List.forall_mem_cons.mp hline
    rw [List.cons_append, getlines, if_neg hc, ih hline]

/-- **The next word of a text**, and the text behind it. -/
def nextWord (cs : List Char) : List Char × List Char :=
  let cs := cs.dropWhile isSpace
  (cs.takeWhile fun c => !isSpace c, cs.dropWhile fun c => !isSpace c)

theorem nextWord_append {word : List Char} (hne : word ≠ []) (hword : ∀ c ∈ word, isSpace c = false)
    (hrest : ∀ c ∈ rest.head?, isSpace c = true) : nextWord (word ++ rest) = (word, rest) := by
  obtain ⟨c, word', rfl⟩ := List.exists_cons_of_ne_nil hne
  have hc : ¬isSpace c = true := by simpa using hword c List.mem_cons_self
  obtain ⟨htake, hdrop⟩ := takeWhile_append_of_all (p := fun c => !isSpace c)
    (fun c hc => by simpa using hword c hc) (fun c (hc : c ∈ rest.head?) => by simpa using hrest c hc)
  rw [nextWord, List.cons_append, List.dropWhile_cons_of_neg hc, ← List.cons_append, htake, hdrop]

/-! ## strtoul -/

/-- The sign of a number, and its digits. -/
def splitSign : List Char → Bool × List Char
  | '-' :: cs => (true, cs)
  | '+' :: cs => (false, cs)
  | cs => (false, cs)

theorem splitSign_numeral (hb : 1 < b) (hb' : b ≤ 16) (n : ℕ) (rest : List Char) :
    splitSign (numeral b n ++ rest) = (false, numeral b n ++ rest) := by
  obtain ⟨c, cs, hcs⟩ := List.exists_cons_of_ne_nil (numeral_ne_nil b n)
  obtain ⟨d, hd, rfl⟩ := exists_digit_of_numeral (c := c) (n := n) hb (by simp [hcs])
  obtain ⟨hminus, hplus⟩ := digitChar_ne_sign (show d < 16 by omega)
  rw [hcs]
  exact splitSign.eq_3 _ (fun _ h => hminus (List.cons.inj h).1) fun _ h => hplus (List.cons.inj h).1

/-- The base of a number in C notation, and its digits. -/
def splitBase : List Char → ℕ × List Char
  | '0' :: x :: d :: cs => if (x = 'x' ∨ x = 'X') ∧ isDigit 16 d then (16, d :: cs) else (8, '0' :: x :: d :: cs)
  | '0' :: cs => (8, '0' :: cs)
  | cs => (10, cs)

/-- **`strtoul(nptr, NULL, 0)`** with an `unsigned long` of 64 bits. -/
def strtoul (nptr : List Char) : ℕ :=
  let signed := splitSign (nptr.dropWhile isSpace)
  let based := splitBase signed.2
  let value := (scanNumber based.1 based.2).1
  if 2 ^ 64 ≤ value then 2 ^ 64 - 1
  else if signed.1 then (2 ^ 64 - value) % 2 ^ 64
  else value

/-- **Reading back a decimal numeral.** -/
theorem strtoul_numeral (hn : n < 2 ^ 64) : strtoul (numeral 10 n) = n := by
  by_cases hzero : n = 0
  · rw [hzero]
    decide
  · obtain ⟨c, cs, hcs⟩ := List.exists_cons_of_ne_nil (numeral_ne_nil 10 n)
    have hc : c ∈ numeral 10 n := by simp [hcs]
    have hspace : ¬isSpace c = true := by simp [isSpace_of_numeral (by decide) (by decide) hc]
    have hne := head_numeral_ne_zero (b := 10) (by decide) (by decide) hzero c (by rw [hcs]; rfl)
    have hsign := splitSign_numeral (b := 10) (by decide) (by decide) n []
    rw [List.append_nil] at hsign
    have hbase : splitBase (numeral 10 n) = (10, numeral 10 n) := by
      rw [hcs]
      exact splitBase.eq_3 _ (fun _ _ _ h => hne (List.cons.inj h).1) fun _ h => hne (List.cons.inj h).1
    have hscan : scanNumber 10 (numeral 10 n ++ []) = (n, []) :=
      scanNumber_numeral (by decide) (by decide) n (by simp)
    rw [List.append_nil] at hscan
    rw [strtoul, hcs, List.dropWhile_cons_of_neg hspace, ← hcs, hsign]
    dsimp only
    rw [hbase]
    dsimp only
    rw [hscan, if_neg (Nat.not_le.mpr hn), if_neg Bool.false_ne_true]

end FailStar
