import FailStar.Foundations.InputStream

/-! # Words and signed numbers from streams

Further formatted input of the C++ library, and the lines and strings it is applied to.

* **`InputStream.extractString`** — `>>` into a string; **`InputStream.extractSigned`** — `>>` into a signed
  integer.
* **`boundedLines`** — `getline` into an array of characters, which gives up at a line that does not fit.
* **`cString`** — the characters of an array up to the terminating one.
* **`InputStream.extractWord_append_of_lt`** — a word that does not fill the array;
  **`InputStream.extractSigned_end`** — a number at the end. -/

namespace FailStar

/-- The lines that `getline(buf, size)` reads. It fails at the first line that does not fit into the array. -/
def boundedLines (size : ℕ) (file : List Char) : List (List Char) :=
  (getlines file).takeWhile fun line => decide (line.length < size)

theorem boundedLines_append_newline {size : ℕ} {line : List Char} (hline : ∀ c ∈ line, c ≠ '\n')
    (hlt : line.length < size)
    (rest : List Char) : boundedLines size (line ++ '\n' :: rest) = line :: boundedLines size rest := by
  rw [boundedLines, getlines_append_newline hline]
  exact List.takeWhile_cons_of_pos (decide_eq_true hlt)

/-- The string in an array of characters. -/
def cString (buf : List Char) : List Char := buf.takeWhile (· ≠ '\x00')

namespace InputStream

/-- **`>>` into a string.** -/
def extractString (is : InputStream Char) : Option (List Char) × InputStream Char :=
  let (ok, is) := is.sentry
  if ok then
    let rest := is.content.dropWhile fun c => !isSpace c
    (some (is.content.takeWhile fun c => !isSpace c), { is with content := rest, eof := rest.isEmpty })
  else (none, is)

/-- **`>>` into a signed integer** of some bits. A number that is out of range is replaced by the nearest one,
and the stream fails. -/
def extractSigned (b bits : ℕ) (is : InputStream Char) : Option ℤ × InputStream Char :=
  let (ok, is) := is.sentry
  if ok then
    let (negative, cs) := splitSign is.content
    let cs := skipBase b cs
    let (value, rest) := scanNumber b cs
    let is := { is with content := rest, eof := rest.isEmpty }
    if (cs.takeWhile (isDigit b)).isEmpty then (some 0, { is with fail := true })
    else if negative then
      if 2 ^ (bits - 1) < value then (some (-2 ^ (bits - 1)), { is with fail := true }) else (some (-value), is)
    else if 2 ^ (bits - 1) ≤ value then (some (2 ^ (bits - 1) - 1), { is with fail := true })
    else (some value, is)
  else (none, is)

variable {ws word rest : List Char} {c : Char} {n b bits width : ℕ}

theorem sentry_word (hws : ∀ c ∈ ws, isSpace c = true) (hne : word ≠ []) (hword : ∀ c ∈ word, isSpace c = false)
    (rest : List Char) : sentry { content := ws ++ (word ++ rest) } = (true, { content := word ++ rest }) := by
  obtain ⟨d, ds, rfl⟩ := List.exists_cons_of_ne_nil hne
  exact sentry_of_cons hws (hword d List.mem_cons_self) _

theorem takeWhile_word (hword : ∀ c ∈ word, isSpace c = false) (hrest : ∀ c ∈ rest.head?, isSpace c = true) :
    (word ++ rest).takeWhile (fun c => !isSpace c) = word ∧
      (word ++ rest).dropWhile (fun c => !isSpace c) = rest :=
  takeWhile_append_of_all (fun c hc => by simpa using hword c hc) fun c hc => by simpa using hrest c hc

theorem extractString_append (hws : ∀ c ∈ ws, isSpace c = true) (hne : word ≠ [])
    (hword : ∀ c ∈ word, isSpace c = false) (hrest : ∀ c ∈ rest.head?, isSpace c = true) :
    extractString { content := ws ++ (word ++ rest) } =
      (some word, { content := rest, eof := rest.isEmpty }) := by
  obtain ⟨htake, hdrop⟩ := takeWhile_word hword hrest
  rw [extractString, sentry_word hws hne hword]
  dsimp only
  rw [htake, hdrop]
  rfl

/-- A word that does not fill the array, up to white space or the end. -/
theorem extractWord_append_of_lt (hws : ∀ c ∈ ws, isSpace c = true) (hne : word ≠ [])
    (hword : ∀ c ∈ word, isSpace c = false) (hrest : ∀ c ∈ rest.head?, isSpace c = true)
    (hlt : word.length + 1 < width) :
    extractWord width { content := ws ++ (word ++ rest) } =
      (some word, { content := rest, eof := rest.isEmpty }) := by
  obtain ⟨htake, -⟩ := takeWhile_word hword hrest
  have hroom : word.length < width - 1 := by omega
  rw [extractWord, sentry_word hws hne hword]
  dsimp only
  rw [htake, List.take_of_length_le hroom.le, List.drop_left, decide_eq_true hroom, Bool.true_and]
  rfl

theorem skipBase_of_ne (hb : b ≠ 16) (cs : List Char) : skipBase b cs = cs := by
  rw [skipBase.eq_def]
  split
  · exact if_neg fun h => hb h.1
  · rfl

theorem extractSigned_end (hn : n < 2 ^ (bits - 1)) :
    extractSigned 10 bits { content := numeral 10 n } = (some (n : ℤ), { content := [], eof := true }) := by
  obtain ⟨d, ds, hds⟩ := List.exists_cons_of_ne_nil (numeral_ne_nil 10 n)
  have hd : d ∈ numeral 10 n := by simp [hds]
  have hsentry : sentry { content := numeral 10 n } = (true, { content := numeral 10 n }) := by
    rw [hds]
    exact sentry_of_cons (List.forall_mem_nil _) (isSpace_of_numeral (by decide) (by decide) hd) ds
  have hsign : splitSign (numeral 10 n) = (false, numeral 10 n) := by
    have happend := splitSign_numeral (b := 10) (by decide) (by decide) n []
    rwa [List.append_nil] at happend
  have hscan : scanNumber 10 (numeral 10 n) = (n, []) := by
    have happend := scanNumber_numeral (b := 10) (by decide) (by decide) n
      (show ∀ c ∈ ([] : List Char).head?, isDigit 10 c = false by simp)
    rwa [List.append_nil] at happend
  have hdigits : ((numeral 10 n).takeWhile (isDigit 10)).isEmpty = false := by
    rw [hds, List.takeWhile_cons_of_pos (isDigit_of_numeral (by decide) (by decide) hd)]
    rfl
  rw [extractSigned, hsentry]
  dsimp only
  rw [hsign]
  dsimp only
  rw [skipBase_of_ne (by decide), hscan, hdigits]
  dsimp only
  rw [if_neg Bool.false_ne_true, if_neg Bool.false_ne_true, if_neg (Nat.not_le.mpr hn)]
  rfl

end InputStream

end FailStar
