import FailStar.Foundations.LexicalPath

/-! # The paths of source files

`core/util/DwarfReader.cc`: the names of the source files that the debugging information lists are normalized, so
that they can be compared. A quick scan looks for what there is to be fixed, and a second loop builds the fixed
path.

The second loop does not leave a separator once it is added: it adds it again with the other characters. And it
looks at the character behind the one it is at to find `.` and `..`, so a component that a separator follows
loses its last character, and the separator with it.

* **`normalize`** — the fixed path; **`needsFix`**, **`construct`** — its two loops.
* **`KeepsMeaning`** — the result denotes the same file, and has no empty and no `.` components.
* **`NothingToFix`** — the paths that the second loop spoils nothing of; **`normalize_keeps_meaning`** — they
  keep their meaning, and unless there is a `.` at the end of a longer component, no other path does. -/

namespace FailStar

namespace DwarfReader

/-! ## The two loops -/

/-- The quick scan, behind a separator or not, at the beginning or not. -/
def needsFix : (hadSep first : Bool) → List Char → Bool
  | _, _, [] => false
  | hadSep, first, c :: cs =>
    if c = '/' then hadSep || needsFix true false cs
    else (decide (c = '.') && (hadSep || first)) || needsFix false false cs

/-- `result.rfind('/', result.length()-2)`: the subtraction wraps around below two characters, and then the whole
text is searched. -/
def rfindSeparator (result : List Char) : Option ℕ :=
  let searched := if result.length < 2 then result else result.dropLast
  (searched.reverse.findIdx? (· = '/')).map (searched.length - 1 - ·)

/-- `..` at the end, or before a separator. -/
def parent (sep result : List Char) : List Char :=
  match rfindSeparator result with
  | some split => if result.drop split ≠ ['/', '.', '.', '/'] then result.take (split + sep.length) else result
  | none =>
    if 0 < result.length then
      if result ≠ ['.', '.', '/'] ∧ result ≠ ['/'] then [] else result
    else ['.', '.'] ++ sep

/-- **The second loop.** -/
def construct : (hadSep first : Bool) → (result : List Char) → List Char → List Char
  | _, _, result, [] => result
  | hadSep, first, result, c :: cs =>
    if c = '/' then
      -- there is no `continue` here, so the end of the loop's body adds the separator once more
      construct false false ((if hadSep then result else result ++ [c]) ++ [c]) cs
    else if c = '.' ∧ (hadSep = true ∨ first = true) then
      if cs = [] then if hadSep then result.dropLast else result
      else construct hadSep false (result ++ [c]) cs
    else
      match cs with
      | '/' :: cs => construct hadSep false result cs
      | ['.'] => parent [] result
      | '.' :: '/' :: cs => construct hadSep false (parent ['/'] result) cs
      | cs => construct false false (result ++ [c]) cs

/-- **`normalize`.** -/
def normalize (filePath : List Char) : List Char :=
  if needsFix false true filePath then construct false true [] filePath else filePath

/-- **The same file is denoted, without empty and `.` components.** -/
def KeepsMeaning (p : List Char) : Prop := resolve (normalize p) = resolve p ∧ CleanPath (normalize p)

instance (p : List Char) : Decidable (KeepsMeaning p) := inferInstanceAs (Decidable (_ ∧ _))

/-- A component that is not empty and does not begin with a `.`. -/
def Ordinary (comp : List Char) : Prop := comp ≠ [] ∧ comp.head? ≠ some '.'

/-- The root, the empty path, and the paths of ordinary components. -/
def Tidy (p : List Char) : Prop := behindRoot p = [] ∨ ∀ comp ∈ pathComponents (behindRoot p), Ordinary comp

/-- A single component that begins with a `.`, and does not end with another one, `..` apart. -/
def DotName (p : List Char) : Prop :=
  '/' ∉ p ∧ p.head? = some '.' ∧ (p = ['.'] ∨ p = ['.', '.'] ∨ p.getLast? ≠ some '.')

/-- The paths that the second loop spoils nothing of. -/
def NothingToFix (p : List Char) : Prop := Tidy p ∨ DotName p

/-- Only `.` ends with a `.`. -/
def NoDotAtEnd (p : List Char) : Prop := ∀ comp ∈ pathComponents p, comp.getLast? = some '.' → comp = ['.']

instance (comp : List Char) : Decidable (Ordinary comp) := inferInstanceAs (Decidable (_ ∧ _))

instance (p : List Char) : Decidable (Tidy p) := inferInstanceAs (Decidable (_ ∨ _))

instance (p : List Char) : Decidable (DotName p) := inferInstanceAs (Decidable (_ ∧ _))

instance (p : List Char) : Decidable (NothingToFix p) := inferInstanceAs (Decidable (_ ∨ _))

variable {p cs result : List Char} {c : Char} {hadSep first : Bool}

/-! ## The quick scan -/

/-- What the scan looks at, component by component. The last component may be empty. -/
theorem needsFix_eq_false_iff (cs : List Char) : ∀ {f : List Char} {fs : List (List Char)} (hadSep first : Bool),
    pathComponents cs = f :: fs →
      (needsFix hadSep first cs = false ↔
        ((hadSep = true ∨ first = true) → f.head? ≠ some '.') ∧ (hadSep = true → fs ≠ [] → f ≠ []) ∧
          (∀ comp ∈ fs, comp.head? ≠ some '.') ∧ ∀ comp ∈ fs.dropLast, comp ≠ []) := by
  induction cs with
  | nil =>
    intro f fs hadSep first hfs
    obtain ⟨rfl, rfl⟩ := List.cons.inj hfs
    simp [needsFix]
  | cons c cs ih =>
    intro f fs hadSep first hfs
    obtain ⟨g, gs, hgs⟩ := List.exists_cons_of_ne_nil (pathComponents_ne_nil cs)
    by_cases hc : c = '/'
    · -- a component begins, so `hadSep` is set for its first character
      rw [hc, pathComponents_slash, hgs] at hfs
      obtain ⟨rfl, rfl⟩ := List.cons.inj hfs
      rw [needsFix, if_pos hc, Bool.or_eq_false_iff, ih true false hgs]
      cases gs with
      | nil => simp
      | cons g' gs =>
        simp only [or_false, ne_eq, forall_const, reduceCtorEq, not_false_eq_true, List.mem_cons,
          forall_eq_or_imp,
          List.head?_nil, implies_true, not_true_eq_false, imp_false, Bool.not_eq_true, List.dropLast_cons_cons,
          true_and]
        tauto
    · rw [pathComponents_cons hc hgs] at hfs
      obtain ⟨rfl, rfl⟩ := List.cons.inj hfs
      rw [needsFix, if_neg hc, Bool.or_eq_false_iff, ih false false hgs]
      have hbegin : (decide (c = '.') && (hadSep || first)) = false ↔
          ((hadSep = true ∨ first = true) → (c :: g).head? ≠ some '.') := by
        rw [← Bool.not_eq_true]
        simp only [Bool.and_eq_true, decide_eq_true_eq, Bool.or_eq_true, List.head?_cons, ne_eq,
          Option.some.injEq]
        tauto
      rw [hbegin]
      simp

/-- Only a separator ends an empty component. -/
theorem isAbsolutePath_of_components {fs : List (List Char)} (h : pathComponents p = [] :: fs) (hfs : fs ≠ []) :
    isAbsolutePath p = true := by
  cases p with
  | nil => exact absurd (List.cons.inj h).2.symm hfs
  | cons c cs =>
    by_cases hc : c = '/'
    · rw [hc]
      rfl
    · obtain ⟨g, gs, hgs⟩ := List.exists_cons_of_ne_nil (pathComponents_ne_nil cs)
      rw [pathComponents_cons hc hgs] at h
      exact absurd (List.cons.inj h).1 (List.cons_ne_nil c g)

/-- The scan finds nothing in a path: no component begins with a `.`, and only the last one may be empty. -/
theorem needsFix_path_iff (p : List Char) :
    needsFix false true p = false ↔
      (∀ comp ∈ pathComponents (behindRoot p), comp.head? ≠ some '.') ∧
        ∀ comp ∈ (pathComponents (behindRoot p)).dropLast, comp ≠ [] := by
  obtain ⟨f, fs, hfs⟩ := List.exists_cons_of_ne_nil (pathComponents_ne_nil p)
  rw [needsFix_eq_false_iff p false true hfs, behindRoot]
  by_cases habsolute : isAbsolutePath p = true
  · obtain ⟨cs, rfl⟩ : ∃ cs, p = '/' :: cs := by
      cases p with
      | nil => exact absurd habsolute (by decide)
      | cons c cs => exact ⟨cs, by simpa [isAbsolutePath] using habsolute⟩
    rw [pathComponents_slash] at hfs
    obtain ⟨rfl, rfl⟩ := List.cons.inj hfs
    rw [if_pos habsolute]
    simp
  · rw [if_neg habsolute, hfs]
    have hf : fs ≠ [] → f ≠ [] := fun hne hnil => habsolute (isAbsolutePath_of_components (hnil ▸ hfs) hne)
    cases fs with
    | nil => simp
    | cons g fs =>
      have hf := hf (List.cons_ne_nil g fs)
      simp [hf, and_assoc]

/-- **The tidy paths are the clean ones in which nothing is found.** -/
theorem tidy_iff (p : List Char) : Tidy p ↔ needsFix false true p = false ∧ CleanPath p := by
  rw [needsFix_path_iff]
  constructor
  · rintro (hnil | htidy)
    · rw [hnil]
      exact ⟨by decide, Or.inl hnil⟩
    · refine ⟨⟨fun comp hmem => (htidy comp hmem).2, fun comp hmem =>
        (htidy comp (List.mem_of_mem_dropLast hmem)).1⟩, Or.inr fun comp hmem => ?_⟩
      rintro (rfl | rfl)
      · exact (htidy _ hmem).1 rfl
      · exact (htidy _ hmem).2 rfl
  · rintro ⟨⟨hhead, _⟩, hnil | hclean⟩
    · exact Or.inl hnil
    · exact Or.inr fun comp hmem => ⟨fun hcomp => hclean comp hmem (Or.inl hcomp), hhead comp hmem⟩

/-- A path that is left as it is keeps its meaning if it is tidy. -/
theorem keepsMeaning_of_not_needsFix (h : needsFix false true p = false) : KeepsMeaning p ↔ Tidy p := by
  have hnormalize : normalize p = p := by rw [normalize, h, if_neg Bool.false_ne_true]
  rw [KeepsMeaning, hnormalize, tidy_iff]
  exact ⟨fun hkeeps => ⟨h, hkeeps.2⟩, fun htidy => ⟨rfl, htidy.2⟩⟩

/-! ## The second loop -/

/-- What the second loop leaves of the components, as long as it finds no `..`. -/
def leftOf : List (List Char) → List Char
  | [] => []
  | [comp] => comp
  | comp :: comps => (if comp = [] then ['/', '/'] else comp.dropLast) ++ leftOf comps

theorem leftOf_cons (comp : List Char) {comps : List (List Char)} (h : comps ≠ []) :
    leftOf (comp :: comps) = (if comp = [] then ['/', '/'] else comp.dropLast) ++ leftOf comps := by
  obtain ⟨g, gs, rfl⟩ := List.exists_cons_of_ne_nil h
  rfl

theorem leftOf_push (c : Char) {g : List Char} (hg : g ≠ []) (gs : List (List Char)) :
    leftOf ((c :: g) :: gs) = c :: leftOf (g :: gs) := by
  cases gs with
  | nil => rfl
  | cons g' gs =>
    rw [leftOf_cons _ (List.cons_ne_nil g' gs), leftOf_cons _ (List.cons_ne_nil g' gs),
      if_neg (List.cons_ne_nil c g), if_neg hg, List.dropLast_cons_of_ne_nil hg, List.cons_append]

theorem NoDotAtEnd.tail (h : NoDotAtEnd (c :: cs)) : NoDotAtEnd cs := by
  obtain ⟨g, gs, hgs⟩ := List.exists_cons_of_ne_nil (pathComponents_ne_nil cs)
  by_cases hc : c = '/'
  · rw [NoDotAtEnd, hc, pathComponents_slash] at h
    exact fun comp hmem => h comp (List.mem_cons_of_mem _ hmem)
  · rw [NoDotAtEnd, pathComponents_cons hc hgs] at h
    rw [NoDotAtEnd, hgs]
    obtain ⟨hfirst, hrest⟩ := List.forall_mem_cons.mp h
    refine List.forall_mem_cons.mpr ⟨fun hlast => ?_, hrest⟩
    have hg : g ≠ [] := fun hnil => by
      rw [hnil] at hlast
      exact absurd hlast (by decide)
    have hdot := hfirst (by rw [List.getLast?_cons_of_ne_nil hg, hlast])
    exact absurd (List.cons.inj hdot).2 hg

/-- No `..` comes behind a character that is not a separator. -/
theorem NoDotAtEnd.not_parent (hc : c ≠ '/') (h : NoDotAtEnd (c :: '.' :: cs)) :
    cs ≠ [] ∧ cs.head? ≠ some '/' := by
  constructor
  · rintro rfl
    have hdot := h [c, '.'] (by rw [pathComponents_cons hc rfl]; exact List.mem_cons_self) rfl
    exact absurd (List.cons.inj hdot).2 (by decide)
  · intro hhead
    obtain ⟨ds, rfl⟩ := List.head?_eq_some_iff.mp hhead
    have hcomps : pathComponents (c :: '.' :: '/' :: ds) = [c, '.'] :: pathComponents ds :=
      pathComponents_cons hc (pathComponents_cons (by decide) (pathComponents_slash ds))
    have hdot := h [c, '.'] (by rw [hcomps]; exact List.mem_cons_self) rfl
    exact absurd (List.cons.inj hdot).2 (by decide)

theorem construct_separator (first : Bool) (result cs : List Char) :
    construct false first result ('/' :: cs) = construct false false (result ++ ['/', '/']) cs := by
  rw [construct.eq_def]
  simp

section Character

variable (hc : c ≠ '/') (hfirst : first = true → c ≠ '.')

include hc hfirst

theorem construct_character (result cs : List Char) :
    construct false first result (c :: cs) =
      match cs with
      | '/' :: cs => construct false false result cs
      | ['.'] => parent [] result
      | '.' :: '/' :: cs => construct false false (parent ['/'] result) cs
      | cs => construct false false (result ++ [c]) cs := by
  have hdot : ¬(c = '.' ∧ (false = true ∨ first = true)) := by
    rintro ⟨hdot, hsep | hbegin⟩
    · exact Bool.false_ne_true hsep
    · exact hfirst hbegin hdot
  rw [construct.eq_def]
  simp only [if_neg hc, if_neg hdot]

theorem construct_push (result : List Char) (hcs : cs.head? ≠ some '/')
    (hparent : ∀ ds, cs = '.' :: ds → ds ≠ [] ∧ ds.head? ≠ some '/') :
    construct false first result (c :: cs) = construct false false (result ++ [c]) cs := by
  rw [construct_character hc hfirst]
  split
  · exact absurd rfl hcs
  · exact absurd rfl (hparent _ rfl).1
  · exact absurd rfl (hparent _ rfl).2
  · rfl

end Character

/-- **The second loop, without `..`.** -/
theorem construct_eq : ∀ (cs : List Char) (first : Bool) (result : List Char), NoDotAtEnd cs →
    (first = true → cs.head? ≠ some '.') →
      construct false first result cs = result ++ leftOf (pathComponents cs)
  | [], first, result, _, _ => by
    rw [construct]
    exact (List.append_nil result).symm
  | c :: cs, first, result, hdots, hfirst => by
    by_cases hc : c = '/'
    · rw [hc, construct_separator, construct_eq cs false _ hdots.tail (by simp), pathComponents_slash,
        leftOf_cons _ (pathComponents_ne_nil cs), if_pos rfl, List.append_assoc]
    have hbegin : first = true → c ≠ '.' := fun hbegin hdot => hfirst hbegin (by rw [hdot]; rfl)
    by_cases hcs : cs.head? = some '/'
    · -- the component's last character is skipped, together with the separator
      obtain ⟨ds, rfl⟩ := List.head?_eq_some_iff.mp hcs
      rw [construct_character hc hbegin, pathComponents_cons hc (pathComponents_slash ds),
        leftOf_cons _ (pathComponents_ne_nil ds)]
      exact construct_eq ds false result hdots.tail.tail (by simp)
    · rw [construct_push hc hbegin result hcs (fun ds hds => (hds ▸ hdots).not_parent hc),
        construct_eq cs false _ hdots.tail (by simp)]
      obtain ⟨g, gs, hgs⟩ := List.exists_cons_of_ne_nil (pathComponents_ne_nil cs)
      rw [pathComponents_cons hc hgs, hgs]
      by_cases hg : g = []
      · have hgs' : gs = [] := by
          by_contra hne
          have habsolute := isAbsolutePath_of_components (hg ▸ hgs) hne
          exact hcs (of_decide_eq_true habsolute)
        rw [hg, hgs']
        simp [leftOf]
      · rw [leftOf_push c hg]
        simp

/-! ## Separators -/

theorem infix_leftOf {comps : List (List Char)} (h : [] ∈ comps.dropLast) : ['/', '/'] <:+: leftOf comps := by
  induction comps with
  | nil => exact absurd h List.not_mem_nil
  | cons comp comps ih =>
    cases comps with
    | nil => exact absurd h List.not_mem_nil
    | cons g gs =>
      rw [leftOf_cons _ (List.cons_ne_nil g gs)]
      rcases List.mem_cons.mp h with hcomp | hmem
      · rw [if_pos hcomp.symm]
        exact List.infix_append' [] _ _
      · exact (ih hmem).trans (List.suffix_append _ _).isInfix

theorem slash_notMem_leftOf {comps : List (List Char)} (hempty : [] ∉ comps.dropLast)
    (h : ∀ comp ∈ comps, '/' ∉ comp) : '/' ∉ leftOf comps := by
  induction comps with
  | nil => exact List.not_mem_nil
  | cons comp comps ih =>
    obtain ⟨hcomp, hcomps⟩ := List.forall_mem_cons.mp h
    cases comps with
    | nil => exact hcomp
    | cons g gs =>
      rw [leftOf_cons _ (List.cons_ne_nil g gs), if_neg (List.ne_of_not_mem_cons hempty).symm]
      intro hmem
      rcases List.mem_append.mp hmem with hmem | hmem
      · exact hcomp (List.mem_of_mem_dropLast hmem)
      · exact ih (List.not_mem_of_not_mem_cons hempty) hcomps hmem

theorem isVoid_leftOf {comps : List (List Char)} (hempty : [] ∉ comps.dropLast)
    (h : ∀ comp ∈ comps, IsVoid comp) :
    IsVoid (leftOf comps) := by
  induction comps with
  | nil => exact Or.inl rfl
  | cons comp comps ih =>
    obtain ⟨hcomp, hcomps⟩ := List.forall_mem_cons.mp h
    cases comps with
    | nil => exact hcomp
    | cons g gs =>
      have hne := (List.ne_of_not_mem_cons hempty).symm
      have hdot : comp = ['.'] := hcomp.resolve_left hne
      rw [leftOf_cons _ (List.cons_ne_nil g gs), if_neg hne, hdot]
      exact ih (List.not_mem_of_not_mem_cons hempty) hcomps

theorem NoDotAtEnd.no_parents (h : NoDotAtEnd p) : ['.', '.'] ∉ pathComponents p :=
  fun hmem => absurd (h _ hmem rfl) (by decide)

/-- Behind the first component there is something, and the first one has lost its last character. -/
theorem resolve_leftOf_ne {f g : List Char} {gs : List (List Char)} (hdots : NoDotAtEnd p)
    (hcomps : pathComponents p = f :: g :: gs) (hf : f ≠ ['.']) (hempty : [] ∉ (f :: g :: gs).dropLast) :
    resolve (leftOf (f :: g :: gs)) ≠ resolve p := by
  have hne : f ≠ [] := (List.ne_of_not_mem_cons hempty).symm
  have hvoid : ¬IsVoid f := fun h => h.elim hne hf
  have hslash : '/' ∉ leftOf (f :: g :: gs) := slash_notMem_leftOf hempty (hcomps ▸ slash_notMem_of_mem p)
  intro heq
  rw [resolve_of_no_separator hslash, resolve_of_no_parents hdots.no_parents, hcomps,
    List.filter_cons_of_pos (by simpa using hvoid)] at heq
  have hcomponents := (Prod.mk.inj heq).2
  split at hcomponents
  · exact absurd hcomponents.symm (List.cons_ne_nil _ _)
  · obtain ⟨hfirst, hrest⟩ := List.cons.inj hcomponents
    -- all the others are dropped, so what is left of them cannot make up for the character
    have hall : ∀ comp ∈ g :: gs, IsVoid comp := fun comp hmem => by
      simpa using List.filter_eq_nil_iff.mp hrest.symm comp hmem
    rw [leftOf_cons _ (List.cons_ne_nil g gs), if_neg hne] at hfirst
    rcases isVoid_leftOf (List.not_mem_of_not_mem_cons hempty) hall with hnil | hdot
    · rw [hnil, List.append_nil] at hfirst
      have hlength := congrArg List.length hfirst
      rw [List.length_dropLast] at hlength
      have hpos := List.length_pos_of_ne_nil hne
      omega
    · rw [hdot] at hfirst
      have hlast : f.getLast? = some '.' := by
        rw [← hfirst]
        exact List.getLast?_concat
      exact hf (hdots f (by rw [hcomps]; exact List.mem_cons_self) hlast)

theorem construct_dot (result : List Char) (h : cs ≠ []) :
    construct false true result ('.' :: cs) = construct false false (result ++ ['.']) cs := by
  rw [construct.eq_def]
  simp [h]

/-- **The second loop on a path without `..`.** Only a `.` at the beginning is different. -/
theorem construct_path {f : List Char} {fs : List (List Char)} (hdots : NoDotAtEnd p)
    (hcomps : pathComponents p = f :: fs) (hf : f ≠ ['.']) : construct false true [] p = leftOf (f :: fs) := by
  by_cases hhead : p.head? = some '.'
  · obtain ⟨cs, rfl⟩ := List.head?_eq_some_iff.mp hhead
    obtain ⟨g, gs, hgs⟩ := List.exists_cons_of_ne_nil (pathComponents_ne_nil cs)
    rw [pathComponents_cons (by decide) hgs] at hcomps
    obtain ⟨rfl, rfl⟩ := List.cons.inj hcomps
    have hg : g ≠ [] := fun hnil => hf (by rw [hnil])
    have hcs : cs ≠ [] := by
      rintro rfl
      exact hg (List.cons.inj hgs).1.symm
    rw [construct_dot [] hcs, construct_eq cs false _ hdots.tail (by simp), hgs, leftOf_push _ hg]
    rfl
  · rw [construct_eq p true [] hdots (fun _ => hhead), hcomps]
    rfl

/-- **A path with a separator is spoiled** once there is something to be fixed. -/
theorem not_keepsMeaning_of_separator (hdots : NoDotAtEnd p) (hfix : needsFix false true p = true)
    (hslash : '/' ∈ p) :
    ¬KeepsMeaning p := by
  have hnormalize : normalize p = construct false true [] p := by rw [normalize, hfix, if_pos rfl]
  rw [KeepsMeaning, hnormalize]
  obtain ⟨f, g, gs, hcomps⟩ := pathComponents_of_mem hslash
  by_cases hf : f = ['.']
  · -- the separator behind the `.` is added twice
    obtain ⟨cs, rfl⟩ : ∃ cs, p = '.' :: '/' :: cs := by
      have hp : ['/'].intercalate (pathComponents p) = p := List.intercalate_splitOn '/'
      rw [hcomps, hf] at hp
      exact ⟨_, hp.symm⟩
    rw [construct_dot [] (List.cons_ne_nil _ _), construct_separator,
      construct_eq cs false _ hdots.tail.tail (by simp)]
    exact fun hkeeps => not_cleanPath_of_infix (List.infix_append ['.'] ['/', '/'] _) hkeeps.2
  · rw [construct_path hdots hcomps hf]
    by_cases hempty : [] ∈ (f :: g :: gs).dropLast
    · exact fun hkeeps => not_cleanPath_of_infix (infix_leftOf hempty) hkeeps.2
    · exact fun hkeeps => resolve_leftOf_ne hdots hcomps hf hempty hkeeps.1

/-! ## Single components -/

theorem behindRoot_of_notMem (h : '/' ∉ p) : behindRoot p = p := by
  have habsolute : ¬isAbsolutePath p = true := fun h' => h (List.mem_of_mem_head? (of_decide_eq_true h'))
  rw [behindRoot, if_neg habsolute]

theorem needsFix_of_notMem (h : '/' ∉ p) : needsFix false true p = false ↔ p.head? ≠ some '.' := by
  rw [needsFix_path_iff, behindRoot_of_notMem h, pathComponents_of_notMem h]
  simp

/-- Without a separator, `..` at the end takes everything with it. -/
theorem parent_of_notMem (h : '/' ∉ result) (hne : result ≠ []) : parent [] result = [] := by
  have hnone : rfindSeparator result = none := by
    rw [rfindSeparator, Option.map_eq_none_iff, List.findIdx?_eq_none_iff]
    intro c hmem
    refine decide_eq_false fun hc => h ?_
    rw [List.mem_reverse, hc] at hmem
    split at hmem
    · exact hmem
    · exact List.mem_of_mem_dropLast hmem
  have hparents : result ≠ ['.', '.', '/'] ∧ result ≠ ['/'] := by
    constructor
    · rintro rfl
      exact h (by decide)
    · rintro rfl
      exact h (by decide)
  rw [parent, hnone]
  dsimp only
  rw [if_pos (List.length_pos_of_ne_nil hne), if_pos hparents]

/-- A `.` at the end is taken for a part of `..`. -/
theorem construct_dot_at_end : ∀ (cs result : List Char), '/' ∉ cs → '/' ∉ result → result ≠ [] → 1 < cs.length →
    cs.getLast? = some '.' → construct false false result cs = []
  | [], _, _, _, _, hlength, _ => absurd hlength (by decide)
  | [_], _, _, _, _, hlength, _ => absurd hlength (Nat.lt_irrefl 1)
  | [c, d], result, hcs, hresult, hne, _, hlast => by
    obtain rfl : d = '.' := Option.some.inj hlast
    rw [construct_character (List.ne_of_not_mem_cons hcs).symm (by simp)]
    exact parent_of_notMem hresult hne
  | c :: d :: e :: cs, result, hcs, hresult, hne, _, hlast => by
    have hc : c ≠ '/' := (List.ne_of_not_mem_cons hcs).symm
    have hcs := List.not_mem_of_not_mem_cons hcs
    have hd : d ≠ '/' := (List.ne_of_not_mem_cons hcs).symm
    have he : e ≠ '/' := (List.ne_of_not_mem_cons (List.not_mem_of_not_mem_cons hcs)).symm
    rw [construct_push hc (by simp) result (by simpa using hd) (fun ds hds => ?_)]
    · refine construct_dot_at_end (d :: e :: cs) _ hcs ?_ (by simp) (by simp) hlast
      simp [hresult, Ne.symm hc]
    · obtain ⟨_, rfl⟩ := List.cons.inj hds
      exact ⟨List.cons_ne_nil e cs, by simpa using he⟩

section Dot

variable (h : '/' ∉ '.' :: cs) (hne : cs ≠ [])

include hne

theorem not_isVoid_dot : ¬IsVoid ('.' :: cs) := by
  rintro (hvoid | hvoid)
  · exact List.cons_ne_nil _ _ hvoid
  · exact hne (List.cons.inj hvoid).2

include h

theorem normalize_dot : normalize ('.' :: cs) = construct false false ['.'] cs := by
  have hfix : needsFix false true ('.' :: cs) = true :=
    Bool.of_not_eq_false fun hfix => (needsFix_of_notMem h).mp hfix rfl
  rw [normalize, hfix, if_pos rfl, construct_dot [] hne]
  rfl

theorem keepsMeaning_dot (hlast : cs.getLast? ≠ some '.') : KeepsMeaning ('.' :: cs) := by
  have hcs := pathComponents_of_notMem (List.not_mem_of_not_mem_cons h)
  have hdots : NoDotAtEnd cs := by
    rw [NoDotAtEnd, hcs]
    intro comp hmem hlast'
    rw [List.mem_singleton.mp hmem] at hlast'
    exact absurd hlast' hlast
  have hnormalize : normalize ('.' :: cs) = '.' :: cs := by
    rw [normalize_dot h hne, construct_eq cs false _ hdots (by simp), hcs]
    rfl
  rw [KeepsMeaning, hnormalize]
  refine ⟨rfl, Or.inr ?_⟩
  rw [behindRoot_of_notMem h, pathComponents_of_notMem h]
  exact fun comp hmem => (List.mem_singleton.mp hmem) ▸ not_isVoid_dot hne

/-- Nothing is left, and the component is not one that is dropped. -/
theorem not_keepsMeaning_dot (hdot : cs ≠ ['.']) (hlast : cs.getLast? = some '.') :
    ¬KeepsMeaning ('.' :: cs) := by
  have hlength : 1 < cs.length := by
    obtain ⟨c, ds, rfl⟩ := List.exists_cons_of_ne_nil hne
    cases ds with
    | nil =>
      have hc : c = '.' := Option.some.inj hlast
      exact absurd (by rw [hc]) hdot
    | cons d ds => simp
  rw [KeepsMeaning, normalize_dot h hne,
    construct_dot_at_end cs _ (List.not_mem_of_not_mem_cons h) (by decide) (by decide) hlength hlast,
    resolve_of_no_separator h, if_neg (not_isVoid_dot hne)]
  exact fun hkeeps => absurd (Prod.mk.inj hkeeps.1).2.symm (List.cons_ne_nil _ _)

end Dot

/-- **A single component keeps its meaning** if it is ordinary, or one of the names that begin with a `.`. -/
theorem keepsMeaning_single_iff (h : '/' ∉ p) : KeepsMeaning p ↔ NothingToFix p := by
  by_cases hhead : p.head? = some '.'
  · have htidy : ¬Tidy p := fun htidy => (needsFix_of_notMem h).mp ((tidy_iff p).mp htidy).1 hhead
    obtain ⟨cs, rfl⟩ := List.head?_eq_some_iff.mp hhead
    by_cases hnil : cs = []
    · rw [hnil]
      exact iff_of_true (by decide) (by decide)
    by_cases hdot : cs = ['.']
    · rw [hdot]
      exact iff_of_true (by decide) (by decide)
    have hlasts : ('.' :: cs).getLast? = cs.getLast? := List.getLast?_cons_of_ne_nil hnil
    by_cases hlast : cs.getLast? = some '.'
    · refine iff_of_false (not_keepsMeaning_dot h hnil hdot hlast) fun hname => ?_
      rcases hname.resolve_left htidy with ⟨_, _, heq | heq | hne⟩
      · exact hnil (List.cons.inj heq).2
      · exact hdot (List.cons.inj heq).2
      · exact hne (by rw [hlasts, hlast])
    · exact iff_of_true (keepsMeaning_dot h hnil hlast) (Or.inr ⟨h, rfl, Or.inr (Or.inr (by rwa [hlasts]))⟩)
  · rw [keepsMeaning_of_not_needsFix ((needsFix_of_notMem h).mpr hhead)]
    exact ⟨Or.inl, fun hname => hname.resolve_right fun hname => hhead hname.2.1⟩

/-! ## The meaning of a path -/

theorem keepsMeaning_of_nothingToFix (h : NothingToFix p) : KeepsMeaning p := by
  rcases h with htidy | hname
  · exact (keepsMeaning_of_not_needsFix ((tidy_iff p).mp htidy).1).mpr htidy
  · exact (keepsMeaning_single_iff hname.1).mpr (Or.inr hname)

theorem nothingToFix_of_keepsMeaning (hdots : NoDotAtEnd p) (h : KeepsMeaning p) : NothingToFix p := by
  by_cases hslash : '/' ∈ p
  · by_cases hfix : needsFix false true p = true
    · exact absurd h (not_keepsMeaning_of_separator hdots hfix hslash)
    · exact Or.inl ((keepsMeaning_of_not_needsFix (Bool.eq_false_of_not_eq_true hfix)).mp h)
  · exact (keepsMeaning_single_iff hslash).mp h

/-- **A path in which there is nothing to fix keeps its meaning**, and two of them are mapped to the same text
only if they denote the same file. Among the paths in which only `.` ends with a `.`, and among those without a
separator, there are no others that keep their meaning. -/
theorem normalize_keeps_meaning (p : List Char) :
    (NothingToFix p → KeepsMeaning p) ∧
      (∀ q, NothingToFix p → NothingToFix q → normalize p = normalize q → resolve p = resolve q) ∧
        (NoDotAtEnd p ∨ '/' ∉ p → KeepsMeaning p → NothingToFix p) := by
  refine ⟨keepsMeaning_of_nothingToFix, fun q hp hq heq => ?_, ?_⟩
  · calc resolve p = resolve (normalize p) := (keepsMeaning_of_nothingToFix hp).1.symm
      _ = resolve (normalize q) := by rw [heq]
      _ = resolve q := (keepsMeaning_of_nothingToFix hq).1
  · rintro (hdots | hslash) hkeeps
    · exact nothingToFix_of_keepsMeaning hdots hkeeps
    · exact (keepsMeaning_single_iff hslash).mp hkeeps

/-- `/usr/a.c` is left as it is. -/
theorem normalize_keeps_meaning_of_file :
    NothingToFix "/usr/a.c".toList ∧ KeepsMeaning "/usr/a.c".toList :=
  ⟨by decide +kernel, (normalize_keeps_meaning _).1 (by decide +kernel)⟩

/-- `a/./b` and `c/./b` both become `b`. -/
theorem current_directory_takes_the_component :
    normalize "a/./b".toList = normalize "c/./b".toList ∧ resolve "a/./b".toList ≠ resolve "c/./b".toList ∧
      ¬KeepsMeaning "a/./b".toList := by
  decide +kernel

end DwarfReader

end FailStar
