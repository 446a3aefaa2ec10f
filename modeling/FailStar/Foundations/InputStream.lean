import FailStar.Foundations.Numerals

/-! # Input streams

An input stream of the C++ library: what is left to be read, and two flags. An operation that fails sets the flag
`fail`, and from then on no operation reads or stores anything. The flag `eof` is set by an operation that had to
look beyond the end, and not by one that merely arrives there.

* **`InputStream.read`** — some number of elements.
* **`InputStream.extractUnsigned`** — `>>` into an unsigned integer, **`InputStream.extractWord`** — `>>` into an
  array of characters. Both yield what they store, if they store anything. -/

namespace FailStar

/-- An input stream. -/
structure InputStream (α : Type*) where
  /-- What is left. -/
  content : List α
  eof : Bool := false
  fail : Bool := false
  deriving DecidableEq, Repr

namespace InputStream

variable {α : Type*}

/-- `good()`. -/
def good (is : InputStream α) : Bool := !is.eof && !is.fail

/-- `read(s, n)`: the elements that were read, and the stream behind them. -/
def read (n : ℕ) (is : InputStream α) : List α × InputStream α :=
  if is.good then
    let short := is.content.length < n
    (is.content.take n, { content := is.content.drop n, eof := short, fail := short })
  else ([], { is with fail := true })

theorem read_of_le {n : ℕ} {cs : List α} (h : n ≤ cs.length) :
    read n { content := cs } = (cs.take n, { content := cs.drop n }) := by
  simp [read, good, Nat.not_lt.mpr h]

theorem read_append (cs rest : List α) :
    read cs.length { content := cs ++ rest } = (cs, { content := rest }) := by
  rw [read_of_le (by simp), List.take_left, List.drop_left]

theorem good_read_of_lt {n : ℕ} {is : InputStream α} (h : is.content.length < n) :
    (read n is).2.good = false := by
  rw [read]
  split
  · simp [good, h]
  · simp [good]

theorem good_read_of_not_good {is : InputStream α} (h : is.good = false) (n : ℕ) :
    (read n is).2.good = false := by
  rw [read, h, if_neg Bool.false_ne_true, good, Bool.not_true, Bool.and_false]

/-! ## Formatted input -/

/-- The sentry of formatted input skips white space. It is `false` if nothing can be read. -/
def sentry (is : InputStream Char) : Bool × InputStream Char :=
  if is.good then
    let content := is.content.dropWhile isSpace
    let none := content.isEmpty
    (!none, { content, eof := none, fail := none })
  else (false, { is with fail := true })

/-- The digits of a hexadecimal number may be preceded by `0x`. -/
def skipBase (b : ℕ) : List Char → List Char
  | '0' :: x :: cs => if b = 16 ∧ (x = 'x' ∨ x = 'X') then cs else '0' :: x :: cs
  | cs => cs

/-- **`>>` into an unsigned integer** of some bits. A number that is too large is replaced by the largest one,
and the stream fails. -/
def extractUnsigned (b bits : ℕ) (is : InputStream Char) : Option ℕ × InputStream Char :=
  let (ok, is) := is.sentry
  if ok then
    let (negative, cs) := splitSign is.content
    let cs := skipBase b cs
    let (value, rest) := scanNumber b cs
    let is := { is with content := rest, eof := rest.isEmpty }
    if (cs.takeWhile (isDigit b)).isEmpty then (some 0, { is with fail := true })
    else if 2 ^ bits ≤ value then (some (2 ^ bits - 1), { is with fail := true })
    else if negative then (some ((2 ^ bits - value) % 2 ^ bits), is)
    else (some value, is)
  else (none, is)

/-- **`>>` into an array of characters** of the size `width`. -/
def extractWord (width : ℕ) (is : InputStream Char) : Option (List Char) × InputStream Char :=
  let (ok, is) := is.sentry
  if ok then
    let word := (is.content.takeWhile fun c => !isSpace c).take (width - 1)
    let rest := is.content.drop word.length
    (some word, { is with content := rest, eof := decide (word.length < width - 1) && rest.isEmpty })
  else (none, is)

variable {ws cs rest : List Char} {c : Char}

theorem sentry_of_fail {is : InputStream Char} (h : is.fail = true) : is.sentry = (false, is) := by
  obtain ⟨content, eof, fail⟩ := is
  obtain rfl : fail = true := h
  simp [sentry, good]

theorem extractUnsigned_of_fail {is : InputStream Char} (h : is.fail = true) (b bits : ℕ) :
    is.extractUnsigned b bits = (none, is) := by
  rw [extractUnsigned, sentry_of_fail h]
  rfl

theorem extractWord_of_fail {is : InputStream Char} (h : is.fail = true) (width : ℕ) :
    is.extractWord width = (none, is) := by
  rw [extractWord, sentry_of_fail h]
  rfl

theorem sentry_of_space (hws : ∀ c ∈ ws, isSpace c = true) :
    sentry { content := ws } = (false, { content := [], eof := true, fail := true }) := by
  have hnil : ws.dropWhile isSpace = [] := List.dropWhile_eq_nil_iff.mpr hws
  simp [sentry, good, hnil]

theorem sentry_of_cons (hws : ∀ c ∈ ws, isSpace c = true) (hc : isSpace c = false) (cs : List Char) :
    sentry { content := ws ++ c :: cs } = (true, { content := c :: cs }) := by
  have hskip : (ws ++ c :: cs).dropWhile isSpace = c :: cs := by
    rw [List.dropWhile_append_of_pos hws, List.dropWhile_cons_of_neg (by simp [hc])]
  simp [sentry, good, hskip]

section Numeral

variable {b n bits : ℕ} (hb : 1 < b) (hb' : b ≤ 16)

include hb hb'

theorem skipBase_numeral (n : ℕ) (hc : isSpace c = true) (rest : List Char) :
    skipBase b (numeral b n ++ c :: rest) = numeral b n ++ c :: rest := by
  by_cases hzero : n = 0
  · have hx : ¬(c = 'x' ∨ c = 'X') := by
      rintro (rfl | rfl)
      · exact absurd hc (by decide)
      · exact absurd hc (by decide)
    rw [hzero, show numeral b 0 = ['0'] from rfl, List.singleton_append, skipBase, if_neg (fun h => hx h.2)]
  · obtain ⟨d, ds, hds⟩ := List.exists_cons_of_ne_nil (numeral_ne_nil b n)
    have hd := head_numeral_ne_zero hb hb' hzero d (by rw [hds]; rfl)
    rw [hds]
    exact skipBase.eq_2 _ _ fun _ _ h => hd (List.cons.inj h).1

theorem extractUnsigned_numeral (n bits : ℕ) (hws : ∀ c ∈ ws, isSpace c = true) (hc : isSpace c = true) :
    extractUnsigned b bits { content := ws ++ (numeral b n ++ c :: rest) } =
      if 2 ^ bits ≤ n then (some (2 ^ bits - 1), { content := c :: rest, fail := true })
      else (some n, { content := c :: rest }) := by
  obtain ⟨d, ds, hds⟩ := List.exists_cons_of_ne_nil (numeral_ne_nil b n)
  have hd : isSpace d = false := isSpace_of_numeral (n := n) hb hb' (by simp [hds])
  have hsentry : sentry { content := ws ++ (numeral b n ++ c :: rest) } =
      (true, { content := numeral b n ++ c :: rest }) := by
    rw [hds]
    exact sentry_of_cons hws hd _
  have hdigits : ((numeral b n ++ c :: rest).takeWhile (isDigit b)).isEmpty = false := by
    rw [hds, List.cons_append,
      List.takeWhile_cons_of_pos (isDigit_of_numeral (n := n) hb hb' (by simp [hds]))]
    rfl
  have hscan : scanNumber b (numeral b n ++ c :: rest) = (n, c :: rest) := by
    refine scanNumber_numeral hb hb' n fun c' hc' => ?_
    rw [← Option.some.inj hc']
    exact isDigit_of_isSpace hc b
  -- neither a sign nor a base is there to be skipped
  rw [extractUnsigned, hsentry]
  dsimp only
  rw [splitSign_numeral hb hb']
  dsimp only
  rw [skipBase_numeral hb hb' n hc, hscan, hdigits]
  rfl

theorem extractUnsigned_of_lt (hn : n < 2 ^ bits) (hws : ∀ c ∈ ws, isSpace c = true) (hc : isSpace c = true) :
    extractUnsigned b bits { content := ws ++ (numeral b n ++ c :: rest) } =
      (some n, { content := c :: rest }) := by
  rw [extractUnsigned_numeral hb hb' n bits hws hc, if_neg (Nat.not_le.mpr hn)]

theorem extractUnsigned_of_le (hn : 2 ^ bits ≤ n) (hws : ∀ c ∈ ws, isSpace c = true) (hc : isSpace c = true) :
    extractUnsigned b bits { content := ws ++ (numeral b n ++ c :: rest) } =
      (some (2 ^ bits - 1), { content := c :: rest, fail := true }) := by
  rw [extractUnsigned_numeral hb hb' n bits hws hc, if_pos hn]

end Numeral

/-- A word that fills the array. -/
theorem extractWord_append {word : List Char} (hne : word ≠ []) (hws : ∀ c ∈ ws, isSpace c = true)
    (hword : ∀ c ∈ word, isSpace c = false) (hc : isSpace c = true) :
    extractWord (word.length + 1) { content := ws ++ (word ++ c :: rest) } =
      (some word, { content := c :: rest }) := by
  have hsentry : sentry { content := ws ++ (word ++ c :: rest) } = (true, { content := word ++ c :: rest }) := by
    obtain ⟨d, ds, rfl⟩ := List.exists_cons_of_ne_nil hne
    exact sentry_of_cons hws (hword d List.mem_cons_self) _
  have htake : (word ++ c :: rest).takeWhile (fun c => !isSpace c) = word := by
    refine (takeWhile_append_of_all (fun c hc => by simpa using hword c hc) fun c' hc' => ?_).1
    rw [← Option.some.inj hc', hc]
    rfl
  rw [extractWord, hsentry]
  dsimp only
  rw [htake, Nat.add_sub_cancel, List.take_length, List.drop_left]
  simp

end InputStream

end FailStar
