import FailStar.Foundations.InputStream

/-! # Checkpoints

The `Checkpoint` plugin writes a line for every checkpoint of the golden run: the instruction pointer, the time,
the value of a variable, and a digest of the memory. Later runs are compared with this file, line by line.

The reader stores the time in 32 bits, and it leaves variables uninitialised where the stream has failed. It
notices the end of the file only if it has looked beyond it before.

* **`Snapshot`** — what `checkpoint()` finds out; **`saveCheckpoint`** — its line in the file.
* **`check`** — one comparison; **`checks`** — all comparisons of a run.
* **`Identifies`** — what the results of the comparisons should say.
* **`checks_identify_iff`** — they do so, whatever the uninitialised variables contain, exactly if the run has no
  more checkpoints than the golden run, and at every checkpoint up to the first difference the time fits into 32
  bits or the instruction pointers differ. -/

namespace FailStar.Checkpoint

/-! ## Writing -/

/-- What is known of the machine at a checkpoint, with instruction pointers of `w` bits. -/
structure Snapshot (w : ℕ) where
  ip : BitVec w
  simtime : UInt64
  value : UInt32
  digest : Vector UInt8 20
  deriving DecidableEq, Repr

/-- `s << std::setw(2) << std::hex << digest[i]`, filled with `0`. -/
def hexByte (byte : UInt8) : List Char := (numeral 16 byte.toNat).leftpad 2 '0'

/-- `digest_str`. -/
def digestStr (digest : Vector UInt8 20) : List Char := digest.toList.flatMap hexByte

variable {w : ℕ}

/-- **`save_checkpoint(ip)`**: the line that is written. -/
def saveCheckpoint (s : Snapshot w) : List Char :=
  numeral 16 s.ip.toNat ++ '\t' :: (numeral 10 s.simtime.toNat ++ '\t' ::
    (numeral 10 s.value.toNat ++ '\t' :: (digestStr s.digest ++ ['\n'])))

/-- The file behind the golden run. -/
def goldenFile (golden : List (Snapshot w)) : List Char := golden.flatMap saveCheckpoint

/-! ## Checking -/

/-- `check_result`. -/
inductive CheckResult
  | identical
  | differentIp
  | differentValue
  | differentDigest
  | invalid
  deriving DecidableEq, Repr

/-- `DIFFERENT_*`. -/
def CheckResult.IsDifferent (r : CheckResult) : Prop :=
  r = .differentIp ∨ r = .differentValue ∨ r = .differentDigest

/-- What the variables of `check` contain at first. -/
structure Uninitialised where
  goldenIp : ℕ
  goldenValue : ℕ
  goldenDigest : List Char
  deriving DecidableEq, Repr, Inhabited

/-- The comparison at the end of `check`. -/
def compare (s : Snapshot w) (goldenIp goldenValue : ℕ) (goldenDigest : List Char) : CheckResult :=
  if s.value.toNat ≠ goldenValue then .differentValue
  else if s.ip.toNat ≠ goldenIp then .differentIp
  else if digestStr s.digest ≠ goldenDigest then .differentDigest
  else .identical

/-- **`check(symbol, ip)`**, for a file that could be opened. -/
def check (u : Uninitialised) (s : Snapshot w) (is : InputStream Char) : CheckResult × InputStream Char :=
  if is.eof then (.invalid, is)
  else
    -- read golden values
    let (goldenIp, is) := is.extractUnsigned 16 w
    let (_, is) := is.extractUnsigned 10 32
    let (goldenValue, is) := is.extractUnsigned 10 32
    let (goldenDigest, is) := is.extractWord 41
    (compare s (goldenIp.getD u.goldenIp) (goldenValue.getD u.goldenValue)
      (goldenDigest.getD u.goldenDigest), is)

/-- **The checks of a run**, each with its own uninitialised variables. -/
def checks : (ℕ → Uninitialised) → List (Snapshot w) → InputStream Char → List CheckResult
  | _, [], _ => []
  | u, s :: run, is => (check (u 0) s is).1 :: checks (fun i => u (i + 1)) run (check (u 0) s is).2

/-- Everything that is compared is the same. -/
def Same (g s : Snapshot w) : Prop := s.ip = g.ip ∧ s.value = g.value ∧ s.digest = g.digest

instance (g s : Snapshot w) : Decidable (Same g s) := inferInstanceAs (Decidable (_ ∧ _))

/-- Nothing differs before the `j`-th checkpoint. -/
def SameBefore (golden run : List (Snapshot w)) (j : ℕ) : Prop :=
  ∀ i < j, ∀ g ∈ golden[i]?, ∀ s ∈ run[i]?, Same g s

/-- **What the results should say**: checkpoints are identical up to the first one that is different, and invalid
behind the last one of the golden run. -/
structure Identifies (golden run : List (Snapshot w)) (results : List CheckResult) : Prop where
  identical : ∀ j, SameBefore golden run j → ∀ g ∈ golden[j]?, ∀ s ∈ run[j]?, Same g s →
    results[j]? = some .identical
  different : ∀ j, SameBefore golden run j → ∀ g ∈ golden[j]?, ∀ s ∈ run[j]?, ¬Same g s →
    ∃ r, results[j]? = some r ∧ r.IsDifferent
  invalid : ∀ j, golden.length ≤ j → j < run.length → results[j]? = some .invalid

/-- **The condition**: the golden run has a checkpoint for every one of the run, and its time fits into 32 bits
unless the instruction pointers already tell the difference. -/
structure Readable (golden run : List (Snapshot w)) : Prop where
  length_le : run.length ≤ golden.length
  fits : ∀ j, SameBefore golden run j → ∀ g ∈ golden[j]?, ∀ s ∈ run[j]?, g.simtime.toNat < 2 ^ 32 ∨ s.ip ≠ g.ip

/-! ## Lines -/

variable {g s : Snapshot w} {golden run : List (Snapshot w)} {r : CheckResult} {results : List CheckResult}
  {u : Uninitialised} {is : InputStream Char}

theorem hexByte_length (byte : UInt8) : (hexByte byte).length = 2 := by
  have hall : ∀ n ∈ List.range 256, ((numeral 16 n).leftpad 2 '0').length = 2 := by decide +kernel
  exact hall byte.toNat (List.mem_range.mpr byte.toNat_lt)

theorem valueOf_hexByte (byte : UInt8) : valueOf 16 (hexByte byte) = byte.toNat := by
  have hall : ∀ n ∈ List.range 256, valueOf 16 ((numeral 16 n).leftpad 2 '0') = n := by decide +kernel
  exact hall byte.toNat (List.mem_range.mpr byte.toNat_lt)

theorem hexByte_inj {byte byte' : UInt8} (h : hexByte byte = hexByte byte') : byte = byte' := by
  rw [← UInt8.toNat_inj, ← valueOf_hexByte, h, valueOf_hexByte]

theorem isSpace_of_hexByte {byte : UInt8} {c : Char} (hc : c ∈ hexByte byte) : isSpace c = false := by
  rw [hexByte, List.leftpad, List.mem_append] at hc
  rcases hc with hc | hc
  · rw [List.eq_of_mem_replicate hc]
    decide
  · exact isSpace_of_numeral (by decide) (by decide) hc

theorem flatMap_hexByte_length (bytes : List UInt8) : (bytes.flatMap hexByte).length = 2 * bytes.length := by
  induction bytes with
  | nil => rfl
  | cons byte bytes ih =>
    rw [List.flatMap_cons, List.length_append, ih, hexByte_length, List.length_cons]
    omega

theorem flatMap_hexByte_inj {bytes bytes' : List UInt8} (h : bytes.flatMap hexByte = bytes'.flatMap hexByte) :
    bytes = bytes' := by
  induction bytes generalizing bytes' with
  | nil =>
    have hlen := flatMap_hexByte_length bytes'
    rw [← h] at hlen
    exact (List.length_eq_zero_iff.mp (by simpa using hlen.symm)).symm
  | cons byte bytes ih =>
    cases bytes' with
    | nil =>
      have hlen := flatMap_hexByte_length (byte :: bytes)
      rw [h] at hlen
      exact absurd hlen (by simp)
    | cons byte' bytes' =>
      rw [List.flatMap_cons, List.flatMap_cons] at h
      obtain ⟨hbyte, hbytes⟩ := List.append_inj h (by rw [hexByte_length, hexByte_length])
      rw [hexByte_inj hbyte, ih hbytes]

theorem digestStr_length (digest : Vector UInt8 20) : (digestStr digest).length = 40 := by
  rw [digestStr, flatMap_hexByte_length, Vector.length_toList]

theorem digestStr_inj {d d' : Vector UInt8 20} : digestStr d = digestStr d' ↔ d = d' := by
  constructor
  · intro h
    exact Vector.toList_inj.mp (flatMap_hexByte_inj h)
  · rintro rfl
    rfl

theorem isSpace_of_digestStr {digest : Vector UInt8 20} {c : Char} (hc : c ∈ digestStr digest) :
    isSpace c = false := by
  obtain ⟨byte, -, hc⟩ := List.mem_flatMap.mp hc
  exact isSpace_of_hexByte hc

/-! ## Comparisons -/

theorem compare_ne_invalid (s : Snapshot w) (ip value : ℕ) (digest : List Char) :
    compare s ip value digest ≠ .invalid := by
  rw [compare]
  split_ifs <;> simp

theorem compare_eq_identical_iff (s : Snapshot w) (ip value : ℕ) (digest : List Char) :
    compare s ip value digest = .identical ↔
      s.ip.toNat = ip ∧ s.value.toNat = value ∧ digestStr s.digest = digest := by
  rw [compare]
  split_ifs with hvalue hip hdigest
  · simp [hvalue]
  · simp [hip]
  · simp [hdigest]
  · exact iff_of_true rfl ⟨not_not.mp hip, not_not.mp hvalue, not_not.mp hdigest⟩

theorem isDifferent_compare_iff (s : Snapshot w) (ip value : ℕ) (digest : List Char) :
    (compare s ip value digest).IsDifferent ↔ compare s ip value digest ≠ .identical := by
  have := compare_ne_invalid s ip value digest
  rw [CheckResult.IsDifferent]
  cases h : compare s ip value digest
  · simp
  · simp
  · simp
  · simp
  · exact absurd h this

/-- A line that was read completely yields the right result. -/
theorem compare_golden (g s : Snapshot w) :
    compare s g.ip.toNat g.value.toNat (digestStr g.digest) = .identical ↔ Same g s := by
  rw [compare_eq_identical_iff, digestStr_inj, BitVec.toNat_inj, UInt32.toNat_inj, Same]

/-! ## One check -/

/-- The stream stands before the lines of `golden`. -/
def AtLines (golden : List (Snapshot w)) (is : InputStream Char) : Prop :=
  ∃ ws, (∀ c ∈ ws, isSpace c = true) ∧ is = { content := ws ++ goldenFile golden }

/-- The stream has failed, but has not seen the end. -/
def Broken (is : InputStream Char) : Prop := is.fail = true ∧ is.eof = false

theorem goldenFile_cons (g : Snapshot w) (golden : List (Snapshot w)) :
    goldenFile (g :: golden) = numeral 16 g.ip.toNat ++ '\t' :: (numeral 10 g.simtime.toNat ++ '\t' ::
      (numeral 10 g.value.toNat ++ '\t' :: (digestStr g.digest ++ '\n' :: goldenFile golden))) := by
  simp [goldenFile, saveCheckpoint]

theorem atLines_goldenFile (golden : List (Snapshot w)) : AtLines golden { content := goldenFile golden } :=
  ⟨[], by simp, rfl⟩

theorem isSpace_of_tab {c : Char} (hc : c ∈ ['\t']) : isSpace c = true := by
  rw [List.mem_singleton.mp hc]
  decide

theorem extractUnsigned_of_tab {n : ℕ} (hn : n < 2 ^ 32) (rest : List Char) :
    InputStream.extractUnsigned 10 32 { content := '\t' :: (numeral 10 n ++ '\t' :: rest) } =
      (some n, { content := '\t' :: rest }) :=
  InputStream.extractUnsigned_of_lt (by decide) (by decide) hn (fun _ => isSpace_of_tab) (by decide)

theorem extractWord_of_tab (digest : Vector UInt8 20) (rest : List Char) :
    InputStream.extractWord 41 { content := '\t' :: (digestStr digest ++ '\n' :: rest) } =
      (some (digestStr digest), { content := '\n' :: rest }) := by
  have hne : digestStr digest ≠ [] := by
    rw [← List.length_pos_iff_ne_nil, digestStr_length]
    decide
  have hnewline : isSpace '\n' = true := by decide
  have h : InputStream.extractWord ((digestStr digest).length + 1)
      { content := ['\t'] ++ (digestStr digest ++ '\n' :: rest) } =
        (some (digestStr digest), { content := '\n' :: rest }) :=
    InputStream.extractWord_append hne (fun _ => isSpace_of_tab) (fun _ => isSpace_of_digestStr) hnewline
  rwa [digestStr_length] at h

theorem extractUnsigned_atLines (h : AtLines (g :: golden) is) : is.eof = false ∧
    is.extractUnsigned 16 w = (some g.ip.toNat, { content := '\t' :: (numeral 10 g.simtime.toNat ++ '\t' ::
      (numeral 10 g.value.toNat ++ '\t' :: (digestStr g.digest ++ '\n' :: goldenFile golden))) }) := by
  obtain ⟨ws, hws, rfl⟩ := h
  rw [goldenFile_cons]
  exact ⟨rfl, InputStream.extractUnsigned_of_lt (by decide) (by decide) g.ip.isLt hws (by decide)⟩

/-- The four extractions of a check, one after the other. -/
theorem check_of_extractions {is₁ is₂ is₃ is₄ : InputStream Char} {goldenIp time goldenValue : Option ℕ}
    {goldenDigest : Option (List Char)} (heof : is.eof = false) (hip : is.extractUnsigned 16 w = (goldenIp, is₁))
    (htime : is₁.extractUnsigned 10 32 = (time, is₂)) (hvalue : is₂.extractUnsigned 10 32 = (goldenValue, is₃))
    (hdigest : is₃.extractWord 41 = (goldenDigest, is₄)) (u : Uninitialised) (s : Snapshot w) :
    check u s is = (compare s (goldenIp.getD u.goldenIp) (goldenValue.getD u.goldenValue)
      (goldenDigest.getD u.goldenDigest), is₄) := by
  rw [check, heof, if_neg Bool.false_ne_true, hip]
  dsimp only
  rw [htime]
  dsimp only
  rw [hvalue]
  dsimp only
  rw [hdigest]

/-- **A line is read.** -/
theorem check_of_fits (h : AtLines (g :: golden) is) (hfits : g.simtime.toNat < 2 ^ 32) :
    ∃ is', AtLines golden is' ∧ ∀ u (s : Snapshot w),
      check u s is = (compare s g.ip.toNat g.value.toNat (digestStr g.digest), is') := by
  obtain ⟨heof, hip⟩ := extractUnsigned_atLines h
  refine ⟨{ content := '\n' :: goldenFile golden }, ⟨['\n'], List.forall_mem_singleton.mpr (by decide), rfl⟩, ?_⟩
  exact check_of_extractions heof hip (extractUnsigned_of_tab hfits _)
    (extractUnsigned_of_tab g.value.toNat_lt _)
    (extractWord_of_tab g.digest _)

/-- Once the stream has failed, the variables stay as they are. -/
theorem check_of_broken (h : Broken is) (u : Uninitialised) (s : Snapshot w) :
    check u s is = (compare s u.goldenIp u.goldenValue u.goldenDigest, is) := by
  obtain ⟨hfail, heof⟩ := h
  have hnumber := InputStream.extractUnsigned_of_fail hfail
  exact check_of_extractions heof (hnumber 16 w) (hnumber 10 32) (hnumber 10 32)
    (InputStream.extractWord_of_fail hfail 41)
    u s

/-- **A time of more than 32 bits**: the stream fails behind the instruction pointer. -/
theorem check_of_overflow (h : AtLines (g :: golden) is) (hlarge : 2 ^ 32 ≤ g.simtime.toNat) :
    ∃ is', Broken is' ∧ ∀ u (s : Snapshot w),
      check u s is = (compare s g.ip.toNat u.goldenValue u.goldenDigest, is') := by
  obtain ⟨heof, hip⟩ := extractUnsigned_atLines h
  have htime : ∀ rest,
      InputStream.extractUnsigned 10 32 { content := '\t' :: (numeral 10 g.simtime.toNat ++ '\t' :: rest) } =
        (some (2 ^ 32 - 1), { content := '\t' :: rest, fail := true }) := fun rest =>
    InputStream.extractUnsigned_of_le (by decide) (by decide) hlarge (fun _ => isSpace_of_tab) (by decide)
  refine ⟨{ content := '\t' ::
    (numeral 10 g.value.toNat ++ '\t' :: (digestStr g.digest ++ '\n' :: goldenFile golden)),
            fail := true }, ⟨rfl, rfl⟩, ?_⟩
  exact check_of_extractions heof hip (htime _) (InputStream.extractUnsigned_of_fail rfl 10 32)
    (InputStream.extractWord_of_fail rfl 41)

/-- **Behind the last line**: the stream fails, and only then it has seen the end. -/
theorem check_of_end (h : AtLines ([] : List (Snapshot w)) is) (u : Uninitialised) (s : Snapshot w) :
    check u s is =
      (compare s u.goldenIp u.goldenValue u.goldenDigest, { content := [], eof := true, fail := true }) := by
  obtain ⟨ws, hws, rfl⟩ := h
  have hip : InputStream.extractUnsigned 16 w { content := ws ++ goldenFile ([] : List (Snapshot w)) } =
      (none, { content := [], eof := true, fail := true }) := by
    rw [InputStream.extractUnsigned, goldenFile, List.flatMap_nil, List.append_nil,
      InputStream.sentry_of_space hws]
    rfl
  have hnumber : InputStream.extractUnsigned 10 32 { content := [], eof := true, fail := true } = (none, _) :=
    InputStream.extractUnsigned_of_fail rfl 10 32
  exact check_of_extractions rfl hip hnumber hnumber (InputStream.extractWord_of_fail rfl 41) u s

/-! ## All checks of a run -/

/-- **No check up to the first one behind the golden run is invalid**, as the stream has not seen the end. -/
theorem checks_ne_invalid (h : AtLines golden is ∨ Broken is) (u : ℕ → Uninitialised) {j : ℕ}
    (hj : j ≤ golden.length) : (checks u run is)[j]? ≠ some .invalid := by
  induction run generalizing golden u is j with
  | nil => simp [checks]
  | cons s run ih =>
    -- whatever the state of the stream is, the end of the file has not been seen
    have hstep : ∃ r is', check (u 0) s is = (r, is') ∧ r ≠ .invalid ∧
        (golden ≠ [] → AtLines golden.tail is' ∨ Broken is') := by
      rcases h with h | h
      · cases golden with
        | nil => exact ⟨_, _, check_of_end h _ s, compare_ne_invalid _ _ _ _, fun h => absurd rfl h⟩
        | cons g golden =>
          by_cases hfits : g.simtime.toNat < 2 ^ 32
          · obtain ⟨is', hlines, hcheck⟩ := check_of_fits h hfits
            exact ⟨_, is', hcheck (u 0) s, compare_ne_invalid _ _ _ _, fun _ => Or.inl hlines⟩
          · obtain ⟨is', hbroken, hcheck⟩ := check_of_overflow h (Nat.not_lt.mp hfits)
            exact ⟨_, is', hcheck (u 0) s, compare_ne_invalid _ _ _ _, fun _ => Or.inr hbroken⟩
      · exact ⟨_, is, check_of_broken h _ s, compare_ne_invalid _ _ _ _, fun _ => Or.inr h⟩
    obtain ⟨r, is', hcheck, hr, hnext⟩ := hstep
    rw [checks, hcheck]
    cases j with
    | zero => simpa using hr
    | succ j =>
      have hne : golden ≠ [] := by
        rintro rfl
        exact absurd hj (by simp)
      rw [List.getElem?_cons_succ]
      exact ih (hnext hne) _ (by rw [List.length_tail]; omega)

theorem sameBefore_zero (golden run : List (Snapshot w)) : SameBefore golden run 0 :=
  fun i hi => absurd hi (by omega)

theorem sameBefore_succ {j : ℕ} :
    SameBefore (g :: golden) (s :: run) (j + 1) ↔ Same g s ∧ SameBefore golden run j := by
  constructor
  · intro h
    exact ⟨h 0 (by omega) g rfl s rfl, fun i hi => h (i + 1) (by omega)⟩
  · rintro ⟨hfirst, hrest⟩ i hi
    cases i with
    | zero =>
      intro g' hg' s' hs'
      rwa [← Option.some.inj hg', ← Option.some.inj hs']
    | succ i => exact hrest i (by omega)

theorem identifies_cons : Identifies (g :: golden) (s :: run) (r :: results) ↔
    (Same g s → r = .identical ∧ Identifies golden run results) ∧
      (¬Same g s → r.IsDifferent ∧
        ∀ j, golden.length ≤ j → j < run.length → results[j]? = some .invalid) := by
  constructor
  · intro ⟨hid, hdiff, hinv⟩
    have hinv' : ∀ j, golden.length ≤ j → j < run.length → results[j]? = some .invalid := fun j hj hj' =>
      hinv (j + 1) (by rw [List.length_cons]; omega) (by rw [List.length_cons]; omega)
    constructor
    · intro hsame
      refine ⟨Option.some.inj (hid 0 (sameBefore_zero _ _) g rfl s rfl hsame), ?_, ?_, hinv'⟩
      · exact fun j hj => hid (j + 1) (sameBefore_succ.mpr ⟨hsame, hj⟩)
      · exact fun j hj => hdiff (j + 1) (sameBefore_succ.mpr ⟨hsame, hj⟩)
    · intro hsame
      obtain ⟨r', hr', hdiff'⟩ := hdiff 0 (sameBefore_zero _ _) g rfl s rfl hsame
      obtain rfl := Option.some.inj hr'
      exact ⟨hdiff', hinv'⟩
  · -- the checkpoint is the first one, or one of the others behind a first one that is the same
    intro ⟨hsame, hother⟩
    refine ⟨fun j hj g' hg' s' hs' heq => ?_, fun j hj g' hg' s' hs' hne => ?_, fun j hj hj' => ?_⟩
    · cases j with
      | zero =>
        rw [← Option.some.inj hg', ← Option.some.inj hs'] at heq
        rw [(hsame heq).1]
        rfl
      | succ j =>
        obtain ⟨hfirst, hrest⟩ := sameBefore_succ.mp hj
        exact (hsame hfirst).2.identical j hrest g' hg' s' hs' heq
    · cases j with
      | zero =>
        rw [← Option.some.inj hg', ← Option.some.inj hs'] at hne
        exact ⟨r, rfl, (hother hne).1⟩
      | succ j =>
        obtain ⟨hfirst, hrest⟩ := sameBefore_succ.mp hj
        exact (hsame hfirst).2.different j hrest g' hg' s' hs' hne
    · rw [List.length_cons] at hj hj'
      obtain ⟨j, rfl⟩ : ∃ i, j = i + 1 := ⟨j - 1, by omega⟩
      by_cases hfirst : Same g s
      · exact (hsame hfirst).2.invalid j (by omega) (by omega)
      · exact (hother hfirst).2 j (by omega) (by omega)

theorem readable_cons : Readable (g :: golden) (s :: run) ↔
    run.length ≤ golden.length ∧ (g.simtime.toNat < 2 ^ 32 ∨ s.ip ≠ g.ip) ∧
      (Same g s → Readable golden run) := by
  constructor
  · intro ⟨hlen, hfits⟩
    refine ⟨by simpa using hlen, hfits 0 (sameBefore_zero _ _) g rfl s rfl, fun hsame =>
      ⟨by simpa using hlen, ?_⟩⟩
    exact fun j hj => hfits (j + 1) (sameBefore_succ.mpr ⟨hsame, hj⟩)
  · intro ⟨hlen, hfirst, hrest⟩
    refine ⟨by simpa using hlen, fun j hj g' hg' s' hs' => ?_⟩
    cases j with
    | zero => rwa [← Option.some.inj hg', ← Option.some.inj hs']
    | succ j =>
      obtain ⟨hsame, hj⟩ := sameBefore_succ.mp hj
      exact (hrest hsame).fits j hj g' hg' s' hs'

/-- **The checks behind the golden run** are invalid only if there are none. -/
theorem checks_invalid_iff (h : AtLines golden is ∨ Broken is) (run : List (Snapshot w))
    (u : ℕ → Uninitialised) :
    (∀ j, golden.length ≤ j → j < run.length → (checks u run is)[j]? = some .invalid) ↔
      run.length ≤ golden.length := by
  constructor
  · intro hinv
    by_contra hlt
    exact checks_ne_invalid h u le_rfl (hinv golden.length le_rfl (by omega))
  · intro hle j hj hj'
    omega

/-- The variables that make a check at a line with a large time say the wrong thing. -/
def misleading (g s : Snapshot w) : Uninitialised :=
  { goldenIp := 0
    goldenValue := if Same g s then s.value.toNat + 1 else s.value.toNat
    goldenDigest := digestStr s.digest }

theorem compare_misleading (hip : s.ip = g.ip) :
    compare s g.ip.toNat (misleading g s).goldenValue (misleading g s).goldenDigest =
      .identical ↔ ¬Same g s := by
  rw [compare_eq_identical_iff, hip, misleading]
  dsimp only
  split
  · rename_i hsame
    simp [hsame]
  · rename_i hne
    simp [hne]

theorem forall_shift {p : (ℕ → Uninitialised) → Prop} :
    (∀ u : ℕ → Uninitialised, p fun i => u (i + 1)) ↔ ∀ u, p u := by
  constructor
  · intro h u
    exact h fun i => u (i - 1)
  · intro h u
    exact h _

theorem identify_cons_of_fits (h : AtLines (g :: golden) is) (hfits : g.simtime.toNat < 2 ^ 32) (s : Snapshot w)
    (run : List (Snapshot w)) (ih : ∀ is', AtLines golden is' →
      ((∀ u, Identifies golden run (checks u run is')) ↔ Readable golden run)) :
    (∀ u, Identifies (g :: golden) (s :: run) (checks u (s :: run) is)) ↔ Readable (g :: golden) (s :: run) := by
  obtain ⟨is', hlines, hcheck⟩ := check_of_fits h hfits
  rw [readable_cons]
  simp only [checks, hcheck, identifies_cons, isDifferent_compare_iff, Ne, compare_golden]
  by_cases hsame : Same g s
  · simp only [hsame, true_implies, not_true_eq_false, false_implies, true_and, and_true, hfits, true_or]
    rw [forall_shift (p := fun u => Identifies golden run (checks u run is')), ih is' hlines]
    exact ⟨fun hread => ⟨hread.length_le, hread⟩, fun hread => hread.2⟩
  · simp only [hsame, not_false_eq_true, false_implies, true_and, and_true, hfits, true_or,
      checks_invalid_iff (Or.inl hlines), forall_const]

theorem identify_cons_of_overflow (h : AtLines (g :: golden) is) (hlarge : 2 ^ 32 ≤ g.simtime.toNat)
    (s : Snapshot w) (run : List (Snapshot w)) :
    (∀ u, Identifies (g :: golden) (s :: run) (checks u (s :: run) is)) ↔ Readable (g :: golden) (s :: run) := by
  obtain ⟨is', hbroken, hcheck⟩ := check_of_overflow h hlarge
  rw [readable_cons]
  simp only [checks, hcheck, identifies_cons, isDifferent_compare_iff, Ne]
  by_cases hip : s.ip = g.ip
  · refine iff_of_false (fun hall => ?_) fun hread => ?_
    · obtain ⟨hid, hdiff⟩ := hall fun _ => misleading g s
      by_cases hsame : Same g s
      · exact (compare_misleading hip).mp (hid hsame).1 hsame
      · exact (hdiff hsame).1 ((compare_misleading hip).mpr hsame)
    · rcases hread.2.1 with hfits | hne
      · omega
      · exact hne hip
  · have hsame : ¬Same g s := fun hsame => hip hsame.1
    have hne : ∀ value digest, ¬compare s g.ip.toNat value digest = .identical := by
      intro value digest heq
      exact hip (BitVec.toNat_inj.mp ((compare_eq_identical_iff ..).mp heq).1)
    simp only [hsame, hip, hne, not_false_eq_true, false_implies, true_and, and_true, or_true,
      checks_invalid_iff (Or.inr hbroken), forall_const]

theorem identify_iff (h : AtLines golden is) (run : List (Snapshot w)) :
    (∀ u, Identifies golden run (checks u run is)) ↔ Readable golden run := by
  induction run generalizing golden is with
  | nil =>
    refine iff_of_true (fun u => ?_) ⟨Nat.zero_le _, ?_⟩
    · exact ⟨by simp, by simp, by simp⟩
    · simp
  | cons s run ih =>
    cases golden with
    | nil =>
      refine iff_of_false (fun hall => ?_) fun hread => absurd hread.length_le (by simp)
      have hinv := (hall fun _ => ⟨0, 0, []⟩).invalid 0 le_rfl (by simp)
      exact checks_ne_invalid (Or.inl h) _ le_rfl hinv
    | cons g golden =>
      by_cases hfits : g.simtime.toNat < 2 ^ 32
      · exact identify_cons_of_fits h hfits s run fun is' hlines => ih hlines
      · exact identify_cons_of_overflow h (Nat.not_lt.mp hfits) s run

/-- **When the checks identify the golden run**, whatever the uninitialised variables contain. -/
theorem checks_identify_iff (golden run : List (Snapshot w)) :
    (∀ u, Identifies golden run (checks u run { content := goldenFile golden })) ↔ Readable golden run :=
  identify_iff (atLines_goldenFile golden) run

/-- A checkpoint at the time `2 ^ 32` is not identical to itself. And even if all times are small, the first
check behind the golden run is compared with uninitialised variables. -/
theorem checkpoint_is_misjudged :
    let s : Snapshot 32 := { ip := 0x100000, simtime := 7, value := 5, digest := Vector.replicate 20 0 }
    let late : Snapshot 32 := { s with simtime := 4294967296 }
    checks (fun _ => ⟨0, 0, []⟩) [late] { content := goldenFile [late] } = [.differentValue] ∧
      checks (fun _ => ⟨0, 0, []⟩) [s, s] { content := goldenFile [s] } = [.identical, .differentValue] := by
  decide +kernel

end FailStar.Checkpoint
