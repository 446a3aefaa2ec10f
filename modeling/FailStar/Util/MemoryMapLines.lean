import FailStar.Foundations.CNumbers
import FailStar.Util.MemoryMapFile

/-! # The lines of memory map files

A memory map file is written by hand as well. Each of its lines is blank, or has a start address and a length in
C notation, and means the addresses from the start up to and without the end. `readFromFile` takes a blank line
for the numbers 0 and 0, and adds the closed interval that ends one before the end. An empty range at address 0
thus ends at the last address of all. And with addresses of 64 bits, the numbers do not fit into the variables
they are read into.

* **`MemoryMap.LineMeans`** — what a line says; **`MemoryMap.rangeOf`** — the addresses it means.
* **`MemoryMap.readAs`** — the addresses that are added for it.
* **`MemoryMap.WellRead`** — the numbers for which these are the same (`readAs_eq_iff`); **`MemoryMap.misread`**
  — what is added for the other ones (`readAs_of_not_wellRead`).
* **`MemoryMap.readFromFile_means_iff`** — a file means what it says exactly if all lines are read well, or the
  others make no difference. -/

namespace FailStar.MemoryMap

/-! ## Lines -/

/-- A line that is blank, or says a start address and a length. -/
abbrev Entry := Option (ℕ × ℕ)

/-- **What a line says.** -/
inductive LineMeans : List Char → Entry → Prop
  | blank {text : List Char} (htext : ∀ c ∈ text, isSpace c = true) : LineMeans text none
  | range {lead addr sep len trail : List Char} {start length : ℕ} (hlead : ∀ c ∈ lead, isSpace c = true)
      (haddr : CNumber addr start) (hsep : ∀ c ∈ sep, isSpace c = true) (hne : sep ≠ [])
        (hlen : CNumber len length)
      (htrail : ∀ c ∈ trail, isSpace c = true) :
      LineMeans (lead ++ (addr ++ (sep ++ (len ++ trail)))) (some (start, length))

/-- The addresses that a line means. -/
def rangeOf : Entry → Finset ℕ
  | none => ∅
  | some (start, length) => Finset.Ico start (start + length)

/-- A number as `strtoul` reads it, in an `unsigned`. -/
def toUnsigned (n : ℕ) : ℕ := min n (2 ^ 64 - 1) % 2 ^ 32

/-- The addresses that `readFromFile` adds for a line. -/
def readAs (w : ℕ) : Entry → Finset ℕ
  | none => Finset.Icc 0 (lastAddress w 0 0)
  | some (start, length) =>
    Finset.Icc (toUnsigned start) (lastAddress w (toUnsigned start) (toInt (toUnsigned length)))

variable {w : ℕ} {text : List Char} {e : Entry}

theorem nextWord_of_space {ws word rest : List Char} (hws : ∀ c ∈ ws, isSpace c = true) (hne : word ≠ [])
    (hword : ∀ c ∈ word, isSpace c = false) (hrest : ∀ c ∈ rest.head?, isSpace c = true) :
    nextWord (ws ++ (word ++ rest)) = (word, rest) := by
  have hskip : (ws ++ (word ++ rest)).dropWhile isSpace = (word ++ rest).dropWhile isSpace :=
    List.dropWhile_append_of_pos hws
  rw [← nextWord_append hne hword hrest, nextWord, nextWord, hskip]

/-- **Reading a line.** -/
theorem readLine_of_means (h : LineMeans text e) (mm : MemoryMap) : readLine w mm text = mm ∪ readAs w e := by
  cases h with
  | blank htext =>
    have hnil : text.dropWhile isSpace = [] := List.dropWhile_eq_nil_iff.mpr htext
    have hword : nextWord text = ([], []) := by
      rw [nextWord, hnil]
      rfl
    -- both words are empty, and `strtoul` makes a number of them all the same
    have hnext : nextWord [] = ([], []) := rfl
    have hzero : strtoul [] = 0 := by decide
    have hint : toInt 0 = 0 := by decide
    rw [readLine, hword]
    dsimp only
    rw [hnext]
    dsimp only
    rw [hzero, Nat.zero_mod, hint, add, readAs]
  | @range lead addr sep len trail start length hlead haddr hsep hne hlen htrail =>
    have hfirst : nextWord (lead ++ (addr ++ (sep ++ (len ++ trail)))) = (addr, sep ++ (len ++ trail)) := by
      refine nextWord_of_space hlead haddr.ne_nil haddr.isSpace fun c hc => ?_
      obtain ⟨s, sep, rfl⟩ := List.exists_cons_of_ne_nil hne
      rw [← Option.some.inj hc]
      exact hsep s List.mem_cons_self
    have hsecond : nextWord (sep ++ (len ++ trail)) = (len, trail) :=
      nextWord_of_space hsep hlen.ne_nil hlen.isSpace fun c hc => htrail c (List.mem_of_mem_head? hc)
    rw [readLine, hfirst]
    dsimp only
    rw [hsecond]
    dsimp only
    rw [strtoul_of_cNumber haddr, strtoul_of_cNumber hlen]
    rfl

/-- **Reading all lines.** -/
theorem mem_foldl_of_means {lines : List (List Char)} {entries : List Entry}
    (h : List.Forall₂ LineMeans lines entries)
    (mm : MemoryMap) (a : ℕ) : a ∈ lines.foldl (readLine w) mm ↔ a ∈ mm ∨ ∃ e ∈ entries, a ∈ readAs w e := by
  induction h generalizing mm with
  | nil => simp
  | cons hline _ ih =>
    rw [List.foldl_cons, ih, readLine_of_means hline, Finset.mem_union, List.exists_mem_cons_iff, or_assoc]

/-! ## Well-read lines -/

/-- **The numbers that are read well.** With addresses of 32 bits, an empty range must not be at an end of the
address space. With addresses of 64 bits, the lower half of the start of an empty range must not be 0, and any
other range must have a start that fits into an `unsigned` and a length that fits into an `int`, or comes back by
sign extension. -/
def WellRead (w : ℕ) : Entry → Prop
  | none => False
  | some (start, length) =>
    if length = 0 then toUnsigned start ≠ 0
    else w = 32 ∨ start < 2 ^ 32 ∧ (length < 2 ^ 31 ∨ 2 ^ 64 - 2 ^ 31 ≤ length ∧ length < 2 ^ 64)

/-- **What is added for a line that is not read well**: all addresses for an empty range. Otherwise the start has
lost its upper half, and the length is taken modulo `2 ^ 32`; from `2 ^ 31` on it is negative, and the interval
ends before its start, or wraps around. -/
def misread (w : ℕ) : Entry → Finset ℕ
  | none => Finset.range (2 ^ w)
  | some (start, length) =>
    let start' := toUnsigned start
    let length' := toUnsigned length
    if length' = 0 ∧ start' = 0 then Finset.range (2 ^ w)
    else if length' < 2 ^ 31 then Finset.Ico start' (start' + length')
    else if 2 ^ 32 < start' + length' then ∅
    else Finset.Ico start' (start' + length' + 2 ^ 64 - 2 ^ 32)

/-- The range fits into the address space. -/
def Fits (w : ℕ) (e : Entry) : Prop := ∀ r ∈ e, r.1 + r.2 ≤ 2 ^ w

instance (w : ℕ) (e : Entry) : Decidable (WellRead w e) := by
  unfold WellRead
  cases e with
  | none => exact inferInstance
  | some r => exact inferInstance

theorem icc_eq_ico_iff {a b s l : ℕ} (hl : 0 < l) :
    Finset.Icc a b = Finset.Ico s (s + l) ↔ a = s ∧ b = s + l - 1 := by
  constructor
  · intro h
    have hmem : ∀ t, a ≤ t ∧ t ≤ b ↔ s ≤ t ∧ t < s + l := by
      intro t
      rw [← Finset.mem_Icc, h, Finset.mem_Ico]
    have hfirst := (hmem s).mpr ⟨le_rfl, by omega⟩
    have hlast := (hmem (s + l - 1)).mpr ⟨by omega, by omega⟩
    have hstart := (hmem a).mp ⟨le_rfl, by omega⟩
    have hend := (hmem b).mp ⟨by omega, le_rfl⟩
    omega
  · rintro ⟨rfl, rfl⟩
    ext t
    rw [Finset.mem_Icc, Finset.mem_Ico]
    omega

theorem lastAddress_zero (hw : w = 32 ∨ w = 64) (addr : ℕ) (haddr : addr < 2 ^ 32) :
    lastAddress w addr 0 = if addr = 0 then 2 ^ w - 1 else addr - 1 := by
  rw [lastAddress]
  rcases hw with rfl | rfl
  · split
    · omega
    · omega
  · split
    · omega
    · omega

theorem toUnsigned_lt (n : ℕ) : toUnsigned n < 2 ^ 32 := Nat.mod_lt _ (by decide)

theorem readAs_none (hw : w = 32 ∨ w = 64) : readAs w none = Finset.range (2 ^ w) := by
  have hpos : 0 < 2 ^ w := by positivity
  rw [readAs, lastAddress_zero hw 0 (by decide), if_pos rfl]
  ext a
  rw [Finset.mem_Icc, Finset.mem_range]
  omega

/-- **Which lines are read well.** -/
theorem readAs_eq_iff (hw : w = 32 ∨ w = 64) (hfits : Fits w e) : readAs w e = rangeOf e ↔ WellRead w e := by
  match e with
  | none =>
    rw [readAs_none hw]
    refine iff_of_false (fun h => ?_) id
    have hzero : 0 ∈ Finset.range (2 ^ w) := Finset.mem_range.mpr (by positivity)
    rw [h] at hzero
    exact Finset.notMem_empty 0 hzero
  | some (start, length) =>
    have hsum : start + length ≤ 2 ^ w := hfits (start, length) rfl
    have hstart := toUnsigned_lt start
    rw [WellRead]
    by_cases hlength : length = 0
    · -- the range is empty
      have hzero : toInt (toUnsigned 0) = 0 := by decide
      rw [if_pos hlength, readAs, rangeOf, hlength, hzero, lastAddress_zero hw _ hstart, Nat.add_zero,
        Finset.Ico_self, Finset.Icc_eq_empty_iff]
      split
      · rename_i hs
        rw [hs]
        simp
      · rename_i hs
        exact iff_of_true (by omega) hs
    · rw [if_neg hlength, readAs, rangeOf, icc_eq_ico_iff (Nat.pos_of_ne_zero hlength), lastAddress, toInt_eq,
        toUnsigned, toUnsigned]
      rcases hw with rfl | rfl
      · refine iff_of_true ?_ (Or.inl rfl)
        split
        · omega
        · omega
      · rw [or_iff_right (by decide)]
        split
        · omega
        · omega

/-- **What is added for the other lines.** -/
theorem readAs_of_not_wellRead (hw : w = 32 ∨ w = 64) (h : ¬WellRead w e) : readAs w e = misread w e := by
  match e with
  | none => exact readAs_none hw
  | some (start, length) =>
    have hstart := toUnsigned_lt start
    have hlt := toUnsigned_lt length
    rw [WellRead] at h
    rw [readAs, misread]
    by_cases hempty : toUnsigned length = 0 ∧ toUnsigned start = 0
    · -- the interval ends one before the address 0
      have hint : toInt 0 = 0 := by decide
      rw [if_pos hempty, hempty.1, hempty.2, hint]
      exact readAs_none hw
    · have h64 : w = 64 := by
        by_cases hlength : length = 0
        · rw [if_pos hlength, not_not] at h
          rw [hlength] at hempty
          exact absurd ⟨rfl, h⟩ hempty
        · rw [if_neg hlength] at h
          exact hw.resolve_left fun h32 => h (Or.inl h32)
      rw [if_neg hempty, lastAddress, toInt_eq, Nat.mod_eq_of_lt hlt, h64]
      split
      · ext a
        rw [Finset.mem_Icc, Finset.mem_Ico]
        omega
      · split
        · rw [Finset.Icc_eq_empty_iff]
          omega
        · ext a
          rw [Finset.mem_Icc, Finset.mem_Ico]
          omega

/-! ## Files -/

/-- The addresses that some lines mean. -/
def Meant (entries : List Entry) (a : ℕ) : Prop := ∃ e ∈ entries, a ∈ rangeOf e

/-- **The file means what it says**: reading it succeeds and adds the addresses that the lines mean, and queries
are answered accordingly. -/
def MeansWhatItSays (w : ℕ) (assertions : Bool) (file : List Char) (entries : List Entry) (mm : MemoryMap) :
    Prop :=
  ∃ mm', readFromFile w assertions file mm = some mm' ∧ (∀ a, a ∈ mm' ↔ a ∈ mm ∨ Meant entries a) ∧
    ∀ addr size, 0 < size → addr + size ≤ 2 ^ w →
      (isMatchingAccess w mm' addr size = true ↔ ∃ i < size, addr + i ∈ mm ∨ Meant entries (addr + i))

/-- **The lines that are not read well make no difference**: outside the map and the lines that are read well,
they mean the addresses that are added for them. -/
def NoDifference (w : ℕ) (entries : List Entry) (mm : MemoryMap) : Prop :=
  ∀ a, a ∉ mm → (∀ e ∈ entries, WellRead w e → a ∉ rangeOf e) →
    ((∃ e ∈ entries, ¬WellRead w e ∧ a ∈ misread w e) ↔ ∃ e ∈ entries, ¬WellRead w e ∧ a ∈ rangeOf e)

theorem noDifference_of_wellRead {entries : List Entry} (h : ∀ e ∈ entries, WellRead w e) (mm : MemoryMap) :
    NoDifference w entries mm := by
  refine fun a _ _ => iff_of_false ?_ ?_
  · rintro ⟨e, he, hbad, -⟩
    exact hbad (h e he)
  · rintro ⟨e, he, hbad, -⟩
    exact hbad (h e he)

/-- A line is read well, or it is not. -/
theorem exists_wellRead_or (w : ℕ) {entries : List Entry} {P : Entry → Prop} :
    (∃ e ∈ entries, P e) ↔ (∃ e ∈ entries, WellRead w e ∧ P e) ∨ ∃ e ∈ entries, ¬WellRead w e ∧ P e := by
  constructor
  · rintro ⟨e, he, hP⟩
    by_cases hwell : WellRead w e
    · exact Or.inl ⟨e, he, hwell, hP⟩
    · exact Or.inr ⟨e, he, hwell, hP⟩
  · rintro (⟨e, he, -, hP⟩ | ⟨e, he, -, hP⟩)
    · exact ⟨e, he, hP⟩
    · exact ⟨e, he, hP⟩

theorem mem_readAs_iff (hw : w = 32 ∨ w = 64) {entries : List Entry} (hfits : ∀ e ∈ entries, Fits w e)
    (mm : MemoryMap) :
    (∀ a, (a ∈ mm ∨ ∃ e ∈ entries, a ∈ readAs w e) ↔ a ∈ mm ∨ Meant entries a) ↔ NoDifference w entries mm := by
  have hread : ∀ a, (∃ e ∈ entries, a ∈ readAs w e) ↔
      (∃ e ∈ entries, WellRead w e ∧ a ∈ rangeOf e) ∨ ∃ e ∈ entries, ¬WellRead w e ∧ a ∈ misread w e := by
    intro a
    rw [exists_wellRead_or w]
    refine or_congr (exists_congr fun e => and_congr_right fun he => and_congr_right fun hwell => ?_)
      (exists_congr fun e => and_congr_right fun _ => and_congr_right fun hbad => ?_)
    · rw [(readAs_eq_iff hw (hfits e he)).mpr hwell]
    · rw [readAs_of_not_wellRead hw hbad]
  refine forall_congr' fun a => ?_
  have hmeant : Meant entries a ↔
      (∃ e ∈ entries, WellRead w e ∧ a ∈ rangeOf e) ∨ ∃ e ∈ entries, ¬WellRead w e ∧
        a ∈ rangeOf e := exists_wellRead_or w
  rw [hread, hmeant]
  by_cases hmm : a ∈ mm
  · simp [hmm]
  · by_cases hwell : ∃ e ∈ entries, WellRead w e ∧ a ∈ rangeOf e
    · have hnot : ¬∀ e ∈ entries, WellRead w e → a ∉ rangeOf e := by
        obtain ⟨e, he, hwell, ha⟩ := hwell
        exact fun hall => hall e he hwell ha
      simp only [hmm, hwell, true_or, or_true, hnot, IsEmpty.forall_iff, imp_true_iff]
    · have hall : ∀ e ∈ entries, WellRead w e → a ∉ rangeOf e := fun e he hw ha => hwell ⟨e, he, hw, ha⟩
      simp only [hmm, hwell, false_or, not_false_iff, true_imp_iff, forall_prop_of_true hall]

/-- **Whether a memory map file means what it says**, for every file of blank lines and ranges. -/
theorem readFromFile_means_iff (hw : w = 32 ∨ w = 64) (assertions : Bool) (file : List Char)
    (entries : List Entry)
    (hlines : List.Forall₂ LineMeans (getlines file) entries) (hfits : ∀ e ∈ entries, Fits w e)
    (mm : MemoryMap) :
    MeansWhatItSays w assertions file entries mm ↔
      (assertions = true → entries ≠ []) ∧ NoDifference w entries mm := by
  have hlength : (getlines file).length = 0 ↔ entries = [] := by
    rw [hlines.length_eq, List.length_eq_zero_iff]
  rw [MeansWhatItSays, readFromFile]
  split
  · rename_i habort
    refine iff_of_false ?_ fun h => h.1 habort.1 (hlength.mp habort.2)
    rintro ⟨mm', hnone, -⟩
    cases hnone
  · rename_i hok
    rw [and_iff_right fun hassert hempty => hok ⟨hassert, hlength.mpr hempty⟩, ← mem_readAs_iff hw hfits]
    constructor
    · rintro ⟨mm', hmm', hmem, -⟩ a
      rw [← hmem, ← Option.some.inj hmm', mem_foldl_of_means hlines]
    · intro hmem
      have hall : ∀ a, a ∈ (getlines file).foldl (readLine w) mm ↔ a ∈ mm ∨ Meant entries a :=
        fun a => (mem_foldl_of_means hlines mm a).trans (hmem a)
      refine ⟨_, rfl, hall, fun addr size hsize hend => ?_⟩
      rw [isMatchingAccess_eq_true_iff hsize hend]
      refine exists_congr fun i => and_congr_right fun _ => ?_
      rw [isMatching, decide_eq_true_iff, hall]

/-- A file of one line. -/
def hexFile : List Char := ['0', 'x', '1', '0', ' ', '4', '\n']

theorem hexFile_means : List.Forall₂ LineMeans (getlines hexFile) [some (16, 4)] := by
  have hstart : CNumber ['0', 'x', '1', '0'] (valueOf 16 ['1', '0']) :=
    .hexadecimal (Or.inl rfl) (List.cons_ne_nil _ _) (List.all_eq_true.mp rfl)
  have hlength : CNumber ['4'] (valueOf 10 ['4']) := .decimal (by decide) (List.all_eq_true.mp rfl)
  have hblank : ∀ c ∈ [' '], isSpace c = true := List.all_eq_true.mp rfl
  have hline := @LineMeans.range [] _ [' '] _ [] _ _ (by simp) hstart hblank (by simp) hlength (by simp)
  exact .cons hline .nil

theorem readFromFile_means_hexFile : MeansWhatItSays 32 true hexFile [some (16, 4)] ∅ :=
  (readFromFile_means_iff (Or.inl rfl) true hexFile [some (16, 4)] hexFile_means (by simp [Fits]) ∅).mpr
    ⟨fun _ => List.cons_ne_nil _ _, noDifference_of_wellRead (by decide) ∅⟩

/-- A blank line adds all addresses. -/
theorem blank_line_floods_map :
    List.Forall₂ LineMeans (getlines ['\n']) [none] ∧ Fits 32 none ∧
      ∃ mm', readFromFile 32 true ['\n'] ∅ = some mm' ∧ 5 ∈ mm' ∧ ¬Meant [none] 5 := by
  have hlines : List.Forall₂ LineMeans (getlines ['\n']) [none] := .cons (.blank (by simp)) .nil
  refine ⟨hlines, by simp [Fits], _, rfl, ?_, ?_⟩
  · rw [mem_foldl_of_means hlines]
    refine Or.inr ⟨none, List.mem_singleton_self _, ?_⟩
    rw [readAs_none (Or.inl rfl), Finset.mem_range]
    decide
  · rintro ⟨e, he, h5⟩
    rw [List.mem_singleton.mp he] at h5
    exact Finset.notMem_empty 5 h5

end FailStar.MemoryMap
