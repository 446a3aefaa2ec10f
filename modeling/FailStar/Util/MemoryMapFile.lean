import FailStar.Foundations.Intervals
import FailStar.Foundations.Numerals
import FailStar.Util.MemoryMap

/-! # Memory map files

`writeToFile` writes one line for every maximal interval of a memory map, with the address and the size in
decimal. `readFromFile` adds the interval of every line to a memory map. But it takes both numbers for
`unsigned`, and the size then for an `int`: with addresses of 64 bits, an interval may come back somewhere else,
or with another size.

* **`MemoryMap.writeToFile`**, **`MemoryMap.readFromFile`** — the text of the file.
* **`MemoryMap.readBack`** — the interval that becomes of a written one; it is the same one exactly if it is
  `Representable` (`readBack_eq_iff`).
* **`MemoryMap.readFromFile_writeToFile_iff`** — a memory map survives exactly if all its intervals are
  representable. All of them are with addresses of 32 bits. -/

namespace FailStar.MemoryMap

/-! ## Files -/

/-- The intervals from `as.begin()` to `as.end()`. -/
def intervals (mm : MemoryMap) : List (ℕ × ℕ) := intervalsOf mm.elements

/-- `it->upper() - it->lower() + 1`, in the `w` bits of `address_t`. -/
def intervalSize (w : ℕ) (iv : ℕ × ℕ) : ℕ := (iv.2 - iv.1 + 1) % 2 ^ w

/-- The line of an interval. -/
def fileLine (w : ℕ) (iv : ℕ × ℕ) : List Char := numeral 10 iv.1 ++ ' ' :: numeral 10 (intervalSize w iv)

/-- **`writeToFile`**: the text of the file. -/
def writeToFile (w : ℕ) (mm : MemoryMap) : List Char := mm.intervals.flatMap fun iv => fileLine w iv ++ ['\n']

/-- The conversion of an `unsigned` to an `int`. -/
def toInt (n : ℕ) : ℤ := (n : ℤ).bmod (2 ^ 32)

/-- `addr + size - 1`, in the `w` bits of `address_t`. -/
def lastAddress (w addr : ℕ) (size : ℤ) : ℕ := ((addr + size - 1) % 2 ^ w).toNat

/-- `add(addr, size)`. -/
def add (w : ℕ) (mm : MemoryMap) (addr : ℕ) (size : ℤ) : MemoryMap :=
  mm ∪ Finset.Icc addr (lastAddress w addr size)

/-- One iteration of the loop in `readFromFile`. -/
def readLine (w : ℕ) (mm : MemoryMap) (buf : List Char) : MemoryMap :=
  let (addr, ss) := nextWord buf
  let (len, _) := nextWord ss
  let guestAddr := strtoul addr % 2 ^ 32
  let guestLen := strtoul len % 2 ^ 32
  mm.add w guestAddr (toInt guestLen)

/-- **`readFromFile`**, for the text of a file that could be opened. If `assertions` are compiled in, it aborts
for a file without lines. -/
def readFromFile (w : ℕ) (assertions : Bool) (file : List Char) (mm : MemoryMap) : Option MemoryMap :=
  let lines := getlines file
  if assertions ∧ lines.length = 0 then none else some (lines.foldl (readLine w) mm)

/-! ## What is read back -/

/-- **The interval that is read back** for a written one. -/
def readBack (w : ℕ) (iv : ℕ × ℕ) : ℕ × ℕ :=
  let guestAddr := iv.1 % 2 ^ 32
  (guestAddr, lastAddress w guestAddr (toInt (intervalSize w iv % 2 ^ 32)))

variable {w : ℕ} {mm : MemoryMap} {iv : ℕ × ℕ}

theorem maximalIntervals_intervals (mm : MemoryMap) : MaximalIntervals {t | t ∈ mm} mm.intervals := by
  have h : MaximalIntervals {t | t ∈ mm.elements} mm.intervals :=
    maximalIntervals_intervalsOf (Finset.sortedLT_sort mm).pairwise
  exact ⟨h.le, h.separated, fun t => (Finset.mem_sort (· ≤ ·)).symm.trans (h.mem_iff t)⟩

theorem intervals_bounds (hmm : ∀ a ∈ mm, a < 2 ^ w) (hiv : iv ∈ mm.intervals) : iv.1 ≤ iv.2 ∧ iv.2 < 2 ^ w := by
  have h := maximalIntervals_intervals mm
  exact ⟨h.le iv hiv, hmm _ (h.mem hiv ⟨h.le iv hiv, le_rfl⟩)⟩

theorem fileLine_ne_newline {c : Char} (hc : c ∈ fileLine w iv) : c ≠ '\n' := by
  have hnumeral : ∀ n, c ∈ numeral 10 n → c ≠ '\n' := by
    rintro n hc rfl
    exact absurd (isSpace_of_numeral (by decide) (by decide) hc) (by decide)
  rw [fileLine, List.mem_append, List.mem_cons] at hc
  rcases hc with hc | rfl | hc
  · exact hnumeral _ hc
  · decide
  · exact hnumeral _ hc

theorem getlines_flatMap_fileLine (ivs : List (ℕ × ℕ)) :
    getlines (ivs.flatMap fun iv => fileLine w iv ++ ['\n']) = ivs.map (fileLine w) := by
  induction ivs with
  | nil => rfl
  | cons iv ivs ih =>
    rw [List.flatMap_cons, List.append_assoc, List.singleton_append,
      getlines_append_newline (fun c hc => fileLine_ne_newline hc), ih, List.map_cons]

theorem readLine_fileLine (hw : w ≤ 64) (hiv : iv.1 < 2 ^ w) (mm : MemoryMap) :
    readLine w mm (fileLine w iv) = mm ∪ Finset.Icc (readBack w iv).1 (readBack w iv).2 := by
  have hle : 2 ^ w ≤ 2 ^ 64 := Nat.pow_le_pow_right (by decide) hw
  have hsize : intervalSize w iv < 2 ^ w := Nat.mod_lt _ (by positivity)
  have hword : ∀ n, ∀ c ∈ numeral 10 n, isSpace c = false :=
    fun n c hc => isSpace_of_numeral (by decide) (by decide) hc
  have haddr : nextWord (fileLine w iv) = (numeral 10 iv.1, ' ' :: numeral 10 (intervalSize w iv)) := by
    refine nextWord_append (numeral_ne_nil _ _) (hword _) fun c hc => ?_
    rw [← Option.some.inj hc]
    decide
  have hlen : nextWord (' ' :: numeral 10 (intervalSize w iv)) = (numeral 10 (intervalSize w iv), []) := by
    have hend : ∀ c ∈ ([] : List Char).head?, isSpace c = true := by simp
    have hword' := nextWord_append (numeral_ne_nil 10 (intervalSize w iv)) (hword _) hend
    rwa [List.append_nil] at hword'
  rw [readLine, haddr]
  dsimp only
  rw [hlen]
  dsimp only
  rw [strtoul_numeral (by omega), strtoul_numeral (by omega), add, readBack]

theorem mem_foldl_readLine (hw : w ≤ 64) {ivs : List (ℕ × ℕ)} (hivs : ∀ iv ∈ ivs, iv.1 < 2 ^ w) (mm : MemoryMap)
    (t : ℕ) : t ∈ (ivs.map (fileLine w)).foldl (readLine w) mm ↔
      t ∈ mm ∨ ∃ iv ∈ ivs, Contains (readBack w iv) t := by
  induction ivs generalizing mm with
  | nil => simp
  | cons iv ivs ih =>
    obtain ⟨hiv, hivs⟩ := List.forall_mem_cons.mp hivs
    rw [List.map_cons, List.foldl_cons, ih hivs, readLine_fileLine hw hiv, Finset.mem_union, Finset.mem_Icc,
      List.exists_mem_cons_iff, or_assoc]
    rfl

/-! ## Which memory maps survive -/

/-- **The interval survives a file**: the address fits into an `unsigned`, and the size into an `int`. As a
negative size is sign extended, it stands for the sizes just below `2 ^ 64`. -/
def Representable (w : ℕ) (iv : ℕ × ℕ) : Prop :=
  w = 32 ∨ iv.1 < 2 ^ 32 ∧ (intervalLength iv < 2 ^ 31 ∨ 2 ^ 64 - 2 ^ 31 ≤ intervalLength iv)

instance (w : ℕ) (iv : ℕ × ℕ) : Decidable (Representable w iv) := inferInstanceAs (Decidable (_ ∨ _))

theorem toInt_eq (n : ℕ) : toInt n =
    if n % 2 ^ 32 < 2 ^ 31 then ((n % 2 ^ 32 : ℕ) : ℤ) else ((n % 2 ^ 32 : ℕ) : ℤ) - 2 ^ 32 := by
  unfold toInt
  rw [Int.bmod_def]
  split
  · rw [if_pos (by omega)]
    omega
  · rw [if_neg (by omega)]
    omega

theorem readBack_eq_of_32 (hle : iv.1 ≤ iv.2) (hlt : iv.2 < 2 ^ 32) : readBack 32 iv = iv := by
  rw [Prod.ext_iff, readBack, lastAddress, toInt_eq, intervalSize]
  split
  · omega
  · omega

theorem readBack_eq_iff_of_64 (hle : iv.1 ≤ iv.2) (hlt : iv.2 < 2 ^ 64) :
    readBack 64 iv = iv ↔ iv.1 < 2 ^ 32 ∧
      (intervalLength iv < 2 ^ 31 ∨ 2 ^ 64 - 2 ^ 31 ≤ intervalLength iv) := by
  rw [Prod.ext_iff, readBack, lastAddress, toInt_eq, intervalSize, intervalLength]
  split
  · omega
  · omega

/-- **An interval is read back** exactly if it is representable. -/
theorem readBack_eq_iff (hw : w = 32 ∨ w = 64) (hle : iv.1 ≤ iv.2) (hlt : iv.2 < 2 ^ w) :
    readBack w iv = iv ↔ Representable w iv := by
  rcases hw with rfl | rfl
  · exact iff_of_true (readBack_eq_of_32 hle hlt) (Or.inl rfl)
  · exact (readBack_eq_iff_of_64 hle hlt).trans (or_iff_right (by decide)).symm

/-- **The intervals that are read back make up the map** exactly if each of them is the written one. -/
theorem mem_iff_readBack (mm : MemoryMap) : (∀ t, t ∈ mm ↔ ∃ iv ∈ mm.intervals, Contains (readBack w iv) t) ↔
    ∀ iv ∈ mm.intervals, readBack w iv = iv := by
  have h := maximalIntervals_intervals mm
  constructor
  · intro hread
    have hsub : ∀ iv ∈ mm.intervals, ∀ t, Contains (readBack w iv) t → t ∈ {t | t ∈ mm} :=
      fun iv hiv t ht => (hread t).mpr ⟨iv, hiv, ht⟩
    -- everything that is read starts below this bound, and no written interval continues another one
    have hlow : ∀ iv ∈ mm.intervals, iv.1 < 2 ^ 32 := by
      intro iv hiv
      have hfirst : Contains iv iv.1 := ⟨le_rfl, h.le iv hiv⟩
      obtain ⟨iv', hiv', hc⟩ := (hread iv.1).mp (h.mem hiv hfirst)
      have hstart : (readBack w iv').1 < 2 ^ 32 := Nat.mod_lt _ (by decide)
      have := (h.le_of_contains hiv (hsub iv' hiv') hfirst hc).1
      omega
    intro iv hiv
    have hlast : Contains iv iv.2 := ⟨h.le iv hiv, le_rfl⟩
    obtain ⟨iv', hiv', hc⟩ := (hread iv.2).mp (h.mem hiv hlast)
    have hstart : (readBack w iv').1 = iv'.1 := Nat.mod_eq_of_lt (hlow iv' hiv')
    have ⟨hge, hle⟩ := h.le_of_contains hiv (hsub iv' hiv') hlast hc
    have ⟨hc1, hc2⟩ := hc
    have := h.le iv' hiv'
    rw [hstart] at hge hc1
    obtain rfl : iv = iv' := by
      rcases h.eq_or_lt hiv hiv' with heq | hlt | hlt
      · exact heq
      · omega
      · omega
    exact Prod.ext hstart (by omega)
  · intro hsame t
    have hmem : t ∈ mm ↔ ∃ iv ∈ mm.intervals, Contains iv t := h.mem_iff t
    rw [hmem]
    refine exists_congr fun iv => and_congr_right fun hiv => ?_
    rw [hsame iv hiv]

theorem intervals_eq_nil_iff : mm.intervals = [] ↔ mm = ∅ := by
  have hmem : ∀ t, t ∈ mm ↔ ∃ iv ∈ mm.intervals, Contains iv t := (maximalIntervals_intervals mm).mem_iff
  constructor
  · intro hnil
    ext t
    rw [hmem, hnil]
    simp
  · rintro rfl
    rw [intervals, elements, Finset.sort_empty]
    rfl

/-- **Which memory maps survive a file**: with addresses of `w` bits, the file that `writeToFile` writes yields
the same memory map again exactly if all its intervals are representable, and it is not empty in a build with
assertions. -/
theorem readFromFile_writeToFile_iff (hw : w = 32 ∨ w = 64) (hmm : ∀ a ∈ mm, a < 2 ^ w) (assertions : Bool) :
    readFromFile w assertions (writeToFile w mm) ∅ = some mm ↔
      (assertions = true → mm ≠ ∅) ∧ ∀ iv ∈ mm.intervals, Representable w iv := by
  have hlow : ∀ iv ∈ mm.intervals, iv.1 < 2 ^ w := by
    intro iv hiv
    have := intervals_bounds hmm hiv
    omega
  have hread : (mm.intervals.map (fileLine w)).foldl (readLine w) ∅ = mm ↔
      ∀ iv ∈ mm.intervals, Representable w iv := by
    rw [Finset.ext_iff]
    calc (∀ t, t ∈ (mm.intervals.map (fileLine w)).foldl (readLine w) ∅ ↔ t ∈ mm)
        ↔ ∀ t, t ∈ mm ↔ ∃ iv ∈ mm.intervals, Contains (readBack w iv) t := by
          refine forall_congr' fun t => ?_
          rw [mem_foldl_readLine (by omega) hlow, or_iff_right (Finset.notMem_empty t)]
          exact iff_comm
      _ ↔ ∀ iv ∈ mm.intervals, readBack w iv = iv := mem_iff_readBack mm
      _ ↔ ∀ iv ∈ mm.intervals, Representable w iv := by
          refine forall₂_congr fun iv hiv => ?_
          obtain ⟨hle, hlt⟩ := intervals_bounds hmm hiv
          exact readBack_eq_iff hw hle hlt
  -- the number of lines is only looked at by the assertion
  rw [readFromFile, writeToFile, getlines_flatMap_fileLine, List.length_map]
  simp only [List.length_eq_zero_iff, intervals_eq_nil_iff]
  split
  · rename_i habort
    simp [habort]
  · rename_i hok
    rw [Option.some.injEq, hread, and_iff_right]
    exact fun hassert hempty => hok ⟨hassert, hempty⟩

/-- Two areas of memory, and the last address of 32 bits. -/
def threeIntervals : MemoryMap := [16, 17, 18, 32, 33, 4294967295].toFinset

theorem intervals_threeIntervals :
    threeIntervals.intervals = [(16, 18), (32, 33), (4294967295, 4294967295)] := by
  have helements : threeIntervals.elements = [16, 17, 18, 32, 33, 4294967295] :=
    (List.toFinset_sort (· ≤ ·) (by decide)).mpr (by decide)
  rw [intervals, helements]
  decide

theorem readFromFile_writeToFile_iff_threeIntervals :
    threeIntervals.intervals = [(16, 18), (32, 33), (4294967295, 4294967295)] ∧
      readFromFile 64 true (writeToFile 64 threeIntervals) ∅ = some threeIntervals := by
  have hlt : ∀ a ∈ threeIntervals, a < 2 ^ 64 := by decide
  refine ⟨intervals_threeIntervals, ?_⟩
  rw [readFromFile_writeToFile_iff (Or.inr rfl) hlt true, intervals_threeIntervals]
  exact ⟨fun _ => by decide, by decide⟩

/-- An address of more than 32 bits comes back without its upper half. -/
theorem high_address_is_truncated :
    (∀ a ∈ ({4294967296} : MemoryMap), a < 2 ^ 64) ∧
      readFromFile 64 false (writeToFile 64 {4294967296}) ∅ = some ({0} : MemoryMap) := by
  refine ⟨by simp, ?_⟩
  have hintervals : intervals {4294967296} = [(4294967296, 4294967296)] := by
    rw [intervals, elements, Finset.sort_singleton]
    rfl
  rw [writeToFile, hintervals]
  decide +kernel

end FailStar.MemoryMap
