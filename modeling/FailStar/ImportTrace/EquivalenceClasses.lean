import FailStar.Foundations.DefUse
import FailStar.Foundations.OrderedMap
import FailStar.ImportTrace.Importer

/-! # The imported equivalence classes

The rows of the `trace` table are the def/use classes of the accesses the importer looks at.

* **`accesses`** — the accesses of a trace, as the concrete importer understands them: which bytes an event
  accesses (**`Kind.ranges`**), and which dynamic instruction the event belongs to.
* **`Refines`** — the importer is in the state the classification of the accesses is in; every byte of the
  inner loop is one step of `DefUse.access`, the last loop is `DefUse.close`.
* **`equivalence_classes_correct`** — every dynamic instruction lies in exactly one row of an address, and
  the row names the first access at or behind it. -/

namespace FailStar.ImportTrace

open Std (TreeMap)

/-! ## The accesses of a trace -/

/-- A range of bytes that are accessed one after the other. -/
structure ByteRange where
  lo : ℕ
  count : ℕ
  type : AccessType

/-- The accesses an instruction makes to the bytes of a range. -/
def ByteRange.accesses (instr : ℕ) (r : ByteRange) : List (Access ℕ AccessType) :=
  (List.range' r.lo r.count).map fun a => ⟨instr, a, r.type⟩

/-- The range is empty, or its end is an `address_t` and its bytes fit the column `data_address`. -/
def ByteRange.Fits (cfg : Config) (r : ByteRange) : Prop :=
  r.count = 0 ∨ (r.lo + r.count < 2 ^ cfg.addressBits ∧ r.lo + r.count ≤ 2 ^ 32)

instance (cfg : Config) (r : ByteRange) : Decidable (r.Fits cfg) := inferInstanceAs (Decidable (_ ∨ _))

namespace RegisterImporter

/-- The bytes of a register. -/
def rangeOf (info : RegInfo) (type : AccessType) : ByteRange := ⟨info.toDataAddress, info.width / 8, type⟩

/-- The bytes of a register we want to inject into. -/
def rangesOf (imp : RegisterImporter) (type : AccessType) (reg : ℕ) : List ByteRange :=
  match imp.getFailRegisterInfo reg with
  | none => []
  | some info => if info.id ∈ imp.registerIds then [rangeOf info type] else []

/-- The bytes of the instruction pointer, if we want to inject into it. -/
def pcRanges (imp : RegisterImporter) : List ByteRange :=
  if imp.doIp then [rangeOf imp.infoPc .read, rangeOf imp.infoPc .write] else []

/-- The bytes of the registers an instruction reads and then writes. -/
def operandRanges (imp : RegisterImporter) (ev : TraceEvent) : List ByteRange :=
  match imp.instrMap.find ev with
  | none => []
  | some opcode => opcode.regUses.flatMap (imp.rangesOf .read) ++ opcode.regDefs.flatMap (imp.rangesOf .write)

/-- The register bytes an instruction accesses. -/
def ranges (imp : RegisterImporter) (ev : TraceEvent) : List ByteRange := imp.pcRanges ++ imp.operandRanges ev

end RegisterImporter

namespace Kind

/-- The bytes an event accesses, in the order of the accesses. -/
def ranges (kind : Kind) (ev : TraceEvent) : List ByteRange :=
  match kind with
  | memory => if ev.hasMemaddr then [⟨ev.getMemaddr, ev.getWidth, ev.getAccesstype⟩] else []
  | instruction instrMap =>
    if ev.hasMemaddr then [] else ((instrMap.find ev).map fun opcode => ⟨ev.ip, opcode.length, .read⟩).toList
  | register imp => if ev.hasMemaddr then [] else imp.ranges ev

/-- The importer looks at the event: in the `RegisterImporter` the memory map lists instructions. -/
def observes (kind : Kind) (cfg : Config) (ev : TraceEvent) : Bool :=
  match kind with
  | register _ => cfg.isMatching (cfg.address ev.ip)
  | _ => true

/-- The importer looks at the address: in the other importers the memory map lists data addresses. -/
def keeps (kind : Kind) (cfg : Config) (a : ℕ) : Bool :=
  match kind with
  | register _ => true
  | _ => cfg.isMatching a

/-- Registers are split into one byte chunks. -/
def Splits : Kind → Prop
  | register imp => imp.doSplitRegisters = true
  | _ => True

end Kind

variable {cfg : Config} {kind : Kind}

/-- The accesses of an event that belongs to the dynamic instruction `instr`. -/
def eventAccesses (cfg : Config) (kind : Kind) (instr : ℕ) (ev : TraceEvent) : List (Access ℕ AccessType) :=
  if kind.observes cfg ev then (kind.ranges ev).flatMap (ByteRange.accesses instr) else []

/-- **The accesses of a trace**, when `instr` instructions were executed and memory accesses belong to the
instruction `current`. -/
def accesses (cfg : Config) (kind : Kind) : ℕ → ℕ → List TraceEvent → List (Access ℕ AccessType)
  | _, _, [] => []
  | instr, current, ev :: events =>
    if ev.hasMemaddr then eventAccesses cfg kind current ev ++ accesses cfg kind instr current events
    else eventAccesses cfg kind instr ev ++ accesses cfg kind (instr + 1) instr events

/-- The number of instruction events. -/
def instructionCount (events : List TraceEvent) : ℕ := events.countP fun ev => !ev.hasMemaddr

/-! ## Refinement of the classification -/

/-- The span of a row. -/
def TraceRow.span (row : TraceRow) : Span ℕ AccessType :=
  ⟨row.instr1, row.instr2, row.dataAddress, row.accesstype, !row.isFake⟩

/-- The classification of a stream of accesses. -/
def classes (xs : List (Access ℕ AccessType)) : DefUse ℕ AccessType := xs.foldl DefUse.access {}

theorem classes_append_singleton (xs : List (Access ℕ AccessType)) (x : Access ℕ AccessType) :
    classes (xs ++ [x]) = (classes xs).access x := by
  rw [classes, List.foldl_append]
  rfl

/-- A further access of an instruction to the same address does not change the classification. -/
theorem classes_append_of_lt {xs : List (Access ℕ AccessType)} {x : Access ℕ AccessType}
    (h : x.instr < (classes xs).openAt x.address) : classes (xs ++ [x]) = classes xs := by
  rw [classes_append_singleton, DefUse.access, if_neg (Nat.not_le_of_lt h)]

/-- **The importer has classified the accesses `xs`.** -/
structure Refines (xs : List (Access ℕ AccessType)) (st : Importer) : Prop where
  rows : st.rows.map TraceRow.span = (classes xs).spans
  openAt : ∀ a, (classes xs).openAt a = (st.openEcs[a]?.getD {}).dyninstr
  keys : ∀ a, a ∈ st.openEcs ↔ ∃ x ∈ xs, x.address = a

/-- Every row is inserted. -/
structure Inserts (cfg : Config) : Prop where
  writes : cfg.importWriteEcs = true
  succeeds : ∀ rows row, cfg.insertMultiple rows row = true

variable {xs : List (Access ℕ AccessType)} {st : Importer} {a instr : ℕ} {ev : TraceEvent}
  {matching : ℕ → Bool}

theorem refines_init : Refines [] {} := by
  refine ⟨rfl, fun a => ?_, fun a => ?_⟩
  · simp [classes]
  · simp

theorem addTraceEvent_of_inserts (hcfg : Inserts cfg) (st : Importer) (left right : Margin) (ev : TraceEvent)
    (isFake : Bool) :
    ∃ row, st.addTraceEvent cfg left right ev isFake = some { st with rows := st.rows ++ [row] } ∧
      row.span = ⟨left.dyninstr, right.dyninstr, ev.getMemaddr % 2 ^ 32, ev.getAccesstype, !isFake⟩ := by
  rw [Importer.addTraceEvent, if_neg (by simp [hcfg.writes])]
  refine ⟨_, if_pos (hcfg.succeeds _ _), rfl⟩

/-- Reading an open EC may create its entry, which then starts where a missing one does. -/
theorem getD_getOpenEC (st : Importer) (a a' : ℕ) :
    (st.getOpenEC a).2.openEcs[a']?.getD {} = st.openEcs[a']?.getD {} := by
  rw [Importer.getOpenEC, TreeMap.getElem?_insertIfNew]
  split
  · rename_i hnew
    obtain rfl : a = a' := compare_eq_iff_eq.mp hnew.1
    rw [TreeMap.getElem?_eq_none hnew.2]
    rfl
  · rfl

theorem mem_getOpenEC (st : Importer) (a a' : ℕ) :
    a' ∈ (st.getOpenEC a).2.openEcs ↔ a' = a ∨ a' ∈ st.openEcs := by
  rw [Importer.getOpenEC, TreeMap.mem_insertIfNew, compare_eq_iff_eq, eq_comm]

theorem getD_newOpenEC (st : Importer) (a time dyninstr ip a' : ℕ) :
    (st.newOpenEC a time dyninstr ip).openEcs[a']?.getD {} =
      if a' = a then { dyninstr, ip, time } else st.openEcs[a']?.getD {} := by
  rw [Importer.newOpenEC, TreeMap.getElem?_insert]
  by_cases ha : a' = a
  · rw [if_pos ha, if_pos (compare_eq_iff_eq.mpr ha.symm), Option.getD_some]
  · rw [if_neg ha, if_neg fun h => ha (compare_eq_iff_eq.mp h).symm]

theorem mem_newOpenEC (st : Importer) (a time dyninstr ip a' : ℕ) :
    a' ∈ (st.newOpenEC a time dyninstr ip).openEcs ↔ a' = a ∨ a' ∈ st.openEcs := by
  rw [Importer.newOpenEC, TreeMap.mem_insert, compare_eq_iff_eq, eq_comm]

theorem Refines.keys_snoc (h : Refines xs st) (x : Access ℕ AccessType) (a' : ℕ) :
    a' = x.address ∨ a' ∈ st.openEcs ↔ ∃ y ∈ xs ++ [x], y.address = a' := by
  rw [h.keys]
  constructor
  · rintro (rfl | ⟨y, hy, rfl⟩)
    · exact ⟨x, by simp, rfl⟩
    · exact ⟨y, List.mem_append_left _ hy, rfl⟩
  · rintro ⟨y, hy, rfl⟩
    rcases List.mem_append.mp hy with hy | hy
    · exact .inr ⟨y, hy, rfl⟩
    · exact .inl (congrArg Access.address (List.mem_singleton.mp hy))

theorem addByte_of_matching (hm : matching a = true) (curtime width : ℕ) (ev : TraceEvent) :
    st.addByte cfg matching curtime instr ev width a =
      if instr < (st.getOpenEC a).1.dyninstr then some (st.getOpenEC a).2
      else
        ((st.getOpenEC a).2.addTraceEvent cfg (st.getOpenEC a).1
          { dyninstr := instr, ip := cfg.address ev.ip, time := curtime }
          { ev with memaddr := some a, width := some width } false).map fun st =>
            st.newOpenEC a ((curtime + 1) % 2 ^ 64) ((instr + 1) % 2 ^ 32) (cfg.address ev.ip) := by
  rw [Importer.addByte, if_pos hm]

/-- **One byte of the inner loop is one access.** -/
theorem Refines.addByte_of_matching (hcfg : Inserts cfg) (h : Refines xs st) (hm : matching a = true)
    (ha : a < 2 ^ 32) (hinstr : instr + 1 < 2 ^ 32) (curtime width : ℕ) (ev : TraceEvent) :
    ∃ st', st.addByte cfg matching curtime instr ev width a = some st' ∧
      Refines (xs ++ [⟨instr, a, ev.getAccesstype⟩]) st' := by
  have hopen : (classes xs).openAt a = (st.getOpenEC a).1.dyninstr := h.openAt a
  rw [ImportTrace.addByte_of_matching hm]
  by_cases hlt : instr < (st.getOpenEC a).1.dyninstr
  · -- the instruction has accessed the address before
    have hclasses : classes (xs ++ [⟨instr, a, ev.getAccesstype⟩]) = classes xs :=
      classes_append_of_lt (hopen ▸ hlt)
    refine ⟨(st.getOpenEC a).2, if_pos hlt, ?_, fun a' => ?_, fun a' => ?_⟩
    · rw [hclasses]
      exact h.rows
    · rw [getD_getOpenEC, hclasses, h.openAt]
    · rw [mem_getOpenEC, h.keys_snoc ⟨instr, a, ev.getAccesstype⟩]
  · obtain ⟨row, hadd, hspan⟩ := addTraceEvent_of_inserts hcfg (st.getOpenEC a).2 (st.getOpenEC a).1
      { dyninstr := instr, ip := cfg.address ev.ip, time := curtime }
      { ev with memaddr := some a, width := some width } false
    have hle : (classes xs).openAt a ≤ instr := by omega
    rw [if_neg hlt, hadd, Option.map_some]
    refine ⟨_, rfl, ?_, fun a' => ?_, fun a' => ?_⟩
    · have hrow : row.span = ⟨(classes xs).openAt a, instr, a, ev.getAccesstype, true⟩ := by
        rw [hspan, hopen]
        show (⟨_, instr, a % 2 ^ 32, ev.getAccesstype, true⟩ : Span ℕ AccessType) = _
        rw [Nat.mod_eq_of_lt ha]
      rw [classes_append_singleton, DefUse.spans_access, if_pos hle, ← h.rows, ← hrow]
      simp [Importer.newOpenEC, Importer.getOpenEC]
    · rw [getD_newOpenEC, classes_append_singleton, DefUse.openAt_access, Nat.mod_eq_of_lt hinstr]
      by_cases haa : a' = a
      · rw [if_pos haa, if_pos haa, haa]
        exact max_eq_right (hle.trans (Nat.le_succ _))
      · rw [if_neg haa, if_neg haa, h.openAt]
        exact congrArg Margin.dyninstr (getD_getOpenEC st a a').symm
    · rw [mem_newOpenEC]
      exact (or_congr_right (mem_getOpenEC st a a')).trans
        (by rw [← or_assoc, or_self, h.keys_snoc ⟨instr, a, ev.getAccesstype⟩])

theorem Refines.foldlM_addByte (hcfg : Inserts cfg) (h : Refines xs st) (hinstr : instr + 1 < 2 ^ 32)
    {as : List ℕ} (has : ∀ a ∈ as, a < 2 ^ 32) (matching : ℕ → Bool) (curtime width : ℕ) (ev : TraceEvent) :
    ∃ st', as.foldlM (Importer.addByte cfg matching curtime instr ev width) st = some st' ∧
      Refines (xs ++ (as.filter matching).map fun a => ⟨instr, a, ev.getAccesstype⟩) st' := by
  induction as generalizing xs st with
  | nil => exact ⟨st, rfl, by simpa using h⟩
  | cons a as ih =>
    have hrest := fun a' ha' => has a' (List.mem_cons_of_mem _ ha')
    rw [List.foldlM_cons, Option.bind_eq_bind]
    by_cases hm : matching a = true
    · obtain ⟨st₁, hst₁, h₁⟩ :=
        h.addByte_of_matching hcfg hm (has a List.mem_cons_self) hinstr curtime width ev
      obtain ⟨st', hst', h'⟩ := ih h₁ hrest
      refine ⟨st', by rw [hst₁, Option.bind_some, hst'], ?_⟩
      rwa [List.filter_cons_of_pos hm, List.map_cons, List.append_cons]
    · obtain ⟨st', hst', h'⟩ := ih h hrest
      refine ⟨st', by rw [Importer.addByte, if_neg hm, Option.bind_some, hst'], ?_⟩
      rwa [List.filter_cons_of_neg hm]

/-- The bounds of the inner loop are those of the range. -/
theorem ByteRange.Fits.range' {r : ByteRange} (h : r.Fits cfg) :
    List.range' (cfg.address r.lo) (cfg.address (r.lo + r.count) - cfg.address r.lo) =
      List.range' r.lo r.count := by
  rcases h with hzero | ⟨hend, -⟩
  · rw [hzero, Nat.add_zero, Nat.sub_self, List.range'_zero, List.range'_zero]
  · rw [Config.address, Config.address, Nat.mod_eq_of_lt hend, Nat.mod_eq_of_lt (by omega),
      Nat.add_sub_cancel_left]

/-- **The inner loop makes the accesses of a range**, as far as they match. -/
theorem Refines.addBytes (hcfg : Inserts cfg) (h : Refines xs st) (hinstr : instr + 1 < 2 ^ 32)
    {r : ByteRange} (hfits : r.Fits cfg) (ev : TraceEvent) (htype : ev.getAccesstype = r.type)
    (matching : ℕ → Bool) (curtime width : ℕ) :
    ∃ st', st.addBytes cfg matching curtime instr ev width (cfg.address r.lo)
        (cfg.address (r.lo + r.count)) = some st' ∧
      Refines (xs ++ (r.accesses instr).filter fun x => matching x.address) st' := by
  have hbound : ∀ a ∈ List.range' r.lo r.count, a < 2 ^ 32 := by
    intro a ha
    rw [List.mem_range'_1] at ha
    rcases hfits with hzero | ⟨-, hend⟩
    · omega
    · omega
  rw [Importer.addBytes, hfits.range']
  obtain ⟨st', hst', h'⟩ := h.foldlM_addByte hcfg hinstr hbound matching curtime width ev
  refine ⟨st', hst', ?_⟩
  rwa [ByteRange.accesses, List.filter_map, ← htype]

/-! ## The concrete importers -/

/-- The accesses of an event that the importer classifies. -/
def kept (cfg : Config) (kind : Kind) (xs : List (Access ℕ AccessType)) : List (Access ℕ AccessType) :=
  xs.filter fun x => kind.keeps cfg x.address

theorem kept_append (cfg : Config) (kind : Kind) (xs ys : List (Access ℕ AccessType)) :
    kept cfg kind (xs ++ ys) = kept cfg kind xs ++ kept cfg kind ys :=
  List.filter_append ..

theorem eventAccesses_of_observes (h : kind.observes cfg ev = true) :
    eventAccesses cfg kind instr ev = (kind.ranges ev).flatMap (ByteRange.accesses instr) := if_pos h

theorem Refines.handleMemEvent_memory (hcfg : Inserts cfg) (h : Refines xs st) (hinstr : instr + 1 < 2 ^ 32)
    (hmem : ev.hasMemaddr = true) (hfits : ∀ r ∈ Kind.memory.ranges ev, r.Fits cfg) (curtime : ℕ) :
    ∃ st', MemoryImporter.handleMemEvent cfg st curtime instr ev = some st' ∧
      Refines (xs ++ kept cfg .memory (eventAccesses cfg .memory instr ev)) st' := by
  have hranges : Kind.memory.ranges ev = [⟨ev.getMemaddr, ev.getWidth, ev.getAccesstype⟩] := if_pos hmem
  rw [hranges] at hfits
  obtain ⟨st', hst', h'⟩ := h.addBytes hcfg hinstr (hfits _ List.mem_cons_self) ev rfl cfg.isMatching
    curtime 1
  refine ⟨st', hst', ?_⟩
  rwa [eventAccesses_of_observes rfl, hranges, List.flatMap_singleton]

theorem Refines.handleIpEvent_instruction {instrMap : InstrMap} (hcfg : Inserts cfg) (h : Refines xs st)
    (hinstr : instr + 1 < 2 ^ 32) (hmem : ¬ ev.hasMemaddr = true)
    (hfits : ∀ r ∈ (Kind.instruction instrMap).ranges ev, r.Fits cfg) (curtime : ℕ) :
    ∃ st', InstructionImporter.handleIpEvent instrMap cfg st curtime instr ev = some st' ∧
      Refines (xs ++ kept cfg (.instruction instrMap) (eventAccesses cfg (.instruction instrMap) instr ev))
        st' := by
  have hranges : (Kind.instruction instrMap).ranges ev =
      ((instrMap.find ev).map fun opcode => (⟨ev.ip, opcode.length, .read⟩ : ByteRange)).toList := if_neg hmem
  rw [hranges] at hfits
  rw [InstructionImporter.handleIpEvent, eventAccesses_of_observes rfl, hranges]
  cases hfind : instrMap.find ev with
  | none => exact ⟨st, rfl, by simpa [kept] using h⟩
  | some opcode =>
    rw [hfind] at hfits
    obtain ⟨st', hst', h'⟩ := h.addBytes hcfg hinstr (hfits _ List.mem_cons_self)
      { ev with accesstype := some .read } rfl cfg.isMatching curtime 1
    refine ⟨st', hst', ?_⟩
    rwa [Option.map_some, Option.toList_some, List.flatMap_singleton]

section Register

variable {imp : RegisterImporter}

/-- The accesses to the bytes of some ranges, if the instruction is observed. -/
def observed (cfg : Config) (instr : ℕ) (ev : TraceEvent) (rs : List ByteRange) : List (Access ℕ AccessType) :=
  (rs.flatMap (ByteRange.accesses instr)).filter fun _ => cfg.isMatching (cfg.address ev.ip)

theorem observed_append (rs rs' : List ByteRange) :
    observed cfg instr ev (rs ++ rs') = observed cfg instr ev rs ++ observed cfg instr ev rs' := by
  rw [observed, List.flatMap_append, List.filter_append]
  rfl

theorem kept_eventAccesses_register (hmem : ¬ ev.hasMemaddr = true) :
    kept cfg (.register imp) (eventAccesses cfg (.register imp) instr ev) =
      observed cfg instr ev (imp.ranges ev) := by
  have hranges : (Kind.register imp).ranges ev = imp.ranges ev := if_neg hmem
  have hobserves : (Kind.register imp).observes cfg ev = cfg.isMatching (cfg.address ev.ip) := rfl
  rw [eventAccesses, hranges, hobserves, kept, observed]
  by_cases hm : cfg.isMatching (cfg.address ev.ip) = true
  · rw [if_pos hm]
    simp [Kind.keeps, hm]
  · rw [if_neg hm]
    simp [hm]

theorem Refines.addRegisterTrace (hcfg : Inserts cfg) (h : Refines xs st) (hinstr : instr + 1 < 2 ^ 32)
    (hsplit : imp.doSplitRegisters = true) (ev : TraceEvent) (type : AccessType) {info : RegInfo}
    (hfits : (RegisterImporter.rangeOf info type).Fits cfg) (curtime : ℕ) :
    ∃ st', imp.addRegisterTrace cfg curtime instr ev type st info = some st' ∧
      Refines (xs ++ observed cfg instr ev [RegisterImporter.rangeOf info type]) st' := by
  rw [RegisterImporter.addRegisterTrace]
  simp only [if_pos hsplit]
  obtain ⟨st', hst', h'⟩ := h.addBytes hcfg hinstr hfits { ev with accesstype := some type } rfl
    (fun _ => cfg.isMatching (cfg.address ev.ip)) curtime 1
  refine ⟨st', hst', ?_⟩
  rwa [observed, List.flatMap_singleton]

theorem observed_nil : observed cfg instr ev [] = [] := rfl

/-- The instruction pointer, if it is injected into, is read and then written. -/
theorem Refines.addInstructionPointer (hcfg : Inserts cfg) (h : Refines xs st) (hinstr : instr + 1 < 2 ^ 32)
    (hsplit : imp.doSplitRegisters = true) (ev : TraceEvent) (hfits : ∀ r ∈ imp.pcRanges, r.Fits cfg)
    (curtime : ℕ) :
    ∃ st', imp.addInstructionPointer cfg curtime instr ev st = some st' ∧
      Refines (xs ++ observed cfg instr ev imp.pcRanges) st' := by
  rw [RegisterImporter.addInstructionPointer]
  rw [RegisterImporter.pcRanges] at hfits ⊢
  by_cases hip : imp.doIp = true
  · rw [if_pos hip] at hfits
    rw [if_pos hip, if_pos hip]
    obtain ⟨st₁, hst₁, h₁⟩ :=
      h.addRegisterTrace hcfg hinstr hsplit ev .read (hfits _ List.mem_cons_self) curtime
    obtain ⟨st', hst', h'⟩ := h₁.addRegisterTrace hcfg hinstr hsplit ev .write
      (hfits _ (List.mem_cons_of_mem _ List.mem_cons_self)) curtime
    refine ⟨st', by rw [hst₁, Option.bind_some, hst'], ?_⟩
    rwa [← List.singleton_append, observed_append, ← List.append_assoc]
  · rw [if_neg hip, if_neg hip, observed_nil, List.append_nil]
    exact ⟨st, rfl, h⟩

theorem Refines.addRegister (hcfg : Inserts cfg) (h : Refines xs st) (hinstr : instr + 1 < 2 ^ 32)
    (hsplit : imp.doSplitRegisters = true) (ev : TraceEvent) (type : AccessType) {reg : ℕ}
    (hfits : ∀ r ∈ imp.rangesOf type reg, r.Fits cfg) (curtime : ℕ) :
    ∃ st', imp.addRegister cfg curtime instr ev type st reg = some st' ∧
      Refines (xs ++ observed cfg instr ev (imp.rangesOf type reg)) st' := by
  rw [RegisterImporter.addRegister]
  rw [RegisterImporter.rangesOf] at hfits ⊢
  cases hinfo : imp.getFailRegisterInfo reg with
  | none => exact ⟨st, rfl, by rwa [observed_nil, List.append_nil]⟩
  | some info =>
    rw [hinfo] at hfits
    by_cases hid : info.id ∈ imp.registerIds
    · simp only [if_pos hid] at hfits ⊢
      exact h.addRegisterTrace hcfg hinstr hsplit ev type (hfits _ List.mem_cons_self) curtime
    · simp only [if_neg hid]
      exact ⟨st, rfl, by rwa [observed_nil, List.append_nil]⟩

theorem Refines.foldlM_addRegister (hcfg : Inserts cfg) (h : Refines xs st) (hinstr : instr + 1 < 2 ^ 32)
    (hsplit : imp.doSplitRegisters = true) (ev : TraceEvent) (type : AccessType) {regs : List ℕ}
    (hfits : ∀ r ∈ regs.flatMap (imp.rangesOf type), r.Fits cfg) (curtime : ℕ) :
    ∃ st', regs.foldlM (imp.addRegister cfg curtime instr ev type) st = some st' ∧
      Refines (xs ++ observed cfg instr ev (regs.flatMap (imp.rangesOf type))) st' := by
  induction regs generalizing xs st with
  | nil => exact ⟨st, rfl, by rwa [List.flatMap_nil, observed_nil, List.append_nil]⟩
  | cons reg regs ih =>
    rw [List.flatMap_cons] at hfits ⊢
    obtain ⟨st₁, hst₁, h₁⟩ := h.addRegister hcfg hinstr hsplit ev type
      (fun r hr => hfits r (List.mem_append_left _ hr)) curtime
    obtain ⟨st', hst', h'⟩ := ih h₁ fun r hr => hfits r (List.mem_append_right _ hr)
    refine ⟨st', ?_, ?_⟩
    · rw [List.foldlM_cons, hst₁, Option.bind_eq_bind, Option.bind_some, hst']
    · rwa [observed_append, ← List.append_assoc]

theorem Refines.handleIpEvent_register (hcfg : Inserts cfg) (h : Refines xs st)
    (hinstr : instr + 1 < 2 ^ 32) (hsplit : imp.doSplitRegisters = true) (hmem : ¬ ev.hasMemaddr = true)
    (hfits : ∀ r ∈ imp.ranges ev, r.Fits cfg) (curtime : ℕ) :
    ∃ st', imp.handleIpEvent cfg st curtime instr ev = some st' ∧
      Refines (xs ++ kept cfg (.register imp) (eventAccesses cfg (.register imp) instr ev)) st' := by
  obtain ⟨st₁, hst₁, h₁⟩ := h.addInstructionPointer hcfg hinstr hsplit ev
    (fun r hr => hfits r (List.mem_append_left _ hr)) curtime
  have hoperands := fun r hr => hfits r (List.mem_append_right _ hr)
  rw [kept_eventAccesses_register hmem, RegisterImporter.ranges, observed_append, ← List.append_assoc,
    RegisterImporter.handleIpEvent, hst₁, Option.bind_some]
  rw [RegisterImporter.operandRanges] at hoperands ⊢
  cases hfind : imp.instrMap.find ev with
  | none => exact ⟨st₁, rfl, by rwa [observed_nil, List.append_nil]⟩
  | some opcode =>
    rw [hfind] at hoperands
    obtain ⟨st₂, hst₂, h₂⟩ := h₁.foldlM_addRegister hcfg hinstr hsplit ev .read
      (fun r hr => hoperands r (List.mem_append_left _ hr)) curtime
    obtain ⟨st', hst', h'⟩ := h₂.foldlM_addRegister hcfg hinstr hsplit ev .write
      (fun r hr => hoperands r (List.mem_append_right _ hr)) curtime
    refine ⟨st', by simp only [hst₂, Option.bind_some, hst'], ?_⟩
    rwa [observed_append, ← List.append_assoc]

end Register

/-- An event that a handler ignores has no accesses. -/
theorem kept_eventAccesses_of_ranges_eq_nil (h : kind.ranges ev = []) :
    kept cfg kind (eventAccesses cfg kind instr ev) = [] := by
  rw [eventAccesses, h, List.flatMap_nil, ite_self]
  rfl

/-- **An instruction event**, in any importer. -/
theorem Refines.handleIpEvent (hcfg : Inserts cfg) (h : Refines xs st) (hinstr : instr + 1 < 2 ^ 32)
    (hkind : kind.Splits) (hmem : ¬ ev.hasMemaddr = true) (hfits : ∀ r ∈ kind.ranges ev, r.Fits cfg)
    (curtime : ℕ) :
    ∃ st', kind.handleIpEvent cfg st curtime instr ev = some st' ∧
      Refines (xs ++ kept cfg kind (eventAccesses cfg kind instr ev)) st' := by
  cases kind with
  | memory =>
    have hranges : Kind.memory.ranges ev = [] := if_neg hmem
    exact ⟨st, rfl, by rwa [kept_eventAccesses_of_ranges_eq_nil hranges, List.append_nil]⟩
  | instruction instrMap => exact h.handleIpEvent_instruction hcfg hinstr hmem hfits curtime
  | register imp =>
    have hranges : (Kind.register imp).ranges ev = imp.ranges ev := if_neg hmem
    exact h.handleIpEvent_register hcfg hinstr hkind hmem (hranges ▸ hfits) curtime

/-- **A memory event**, in any importer. -/
theorem Refines.handleMemEvent (hcfg : Inserts cfg) (h : Refines xs st) (hinstr : instr + 1 < 2 ^ 32)
    (hmem : ev.hasMemaddr = true) (hfits : ∀ r ∈ kind.ranges ev, r.Fits cfg) (curtime : ℕ) :
    ∃ st', kind.handleMemEvent cfg st curtime instr ev = some st' ∧
      Refines (xs ++ kept cfg kind (eventAccesses cfg kind instr ev)) st' := by
  cases kind with
  | memory => exact h.handleMemEvent_memory hcfg hinstr hmem hfits curtime
  | instruction instrMap =>
    have hranges : (Kind.instruction instrMap).ranges ev = [] := if_pos hmem
    exact ⟨st, rfl, by rwa [kept_eventAccesses_of_ranges_eq_nil hranges, List.append_nil]⟩
  | register imp =>
    have hranges : (Kind.register imp).ranges ev = [] := if_pos hmem
    exact ⟨st, rfl, by rwa [kept_eventAccesses_of_ranges_eq_nil hranges, List.append_nil]⟩

/-! ## The loop over the trace -/

/-- What the import asks of an event: no negative time delta, and ranges that fit. -/
structure Importable (cfg : Config) (kind : Kind) (ev : TraceEvent) : Prop where
  time : ∀ delta ∈ ev.timeDelta, 0 ≤ delta
  fits : ∀ r ∈ kind.ranges ev, r.Fits cfg

variable {p : Progress} {events : List TraceEvent}

/-- The time of an event has no influence on the classification. -/
theorem advanceTime_of_importable (hev : Importable cfg kind ev) (h : Refines xs p.st) :
    ∃ p', advanceTime p ev = some p' ∧ Refines xs p'.st ∧ p'.instr = p.instr ∧
      p'.instrMemaccess = p.instrMemaccess := by
  rw [advanceTime]
  cases hdelta : ev.timeDelta with
  | none => exact ⟨p, rfl, h, rfl, rfl⟩
  | some delta =>
    refine ⟨_, if_pos (hev.time delta hdelta), ?_, rfl, rfl⟩
    exact ⟨h.rows, h.openAt, h.keys⟩

theorem instructionCount_cons_of_mem (hmem : ev.hasMemaddr = true) :
    instructionCount (ev :: events) = instructionCount events := by
  simp [instructionCount, hmem]

theorem instructionCount_cons_of_not_mem (hmem : ¬ ev.hasMemaddr = true) :
    instructionCount (ev :: events) = instructionCount events + 1 := by
  simp [instructionCount, hmem]

theorem advanceTime_instr {p' : Progress} (h : advanceTime p ev = some p') :
    p'.instr = p.instr ∧ p'.instrMemaccess = p.instrMemaccess := by
  rw [advanceTime] at h
  split at h
  · exact (Option.some.inj h) ▸ ⟨rfl, rfl⟩
  · split at h
    · exact (Option.some.inj h) ▸ ⟨rfl, rfl⟩
    · cases h

/-- **The numbering of an event**: accesses belong to the last instruction, and an instruction event to the
next one. -/
theorem importEvent_instr {p' : Progress} (h : importEvent cfg kind p ev = some p') :
    p'.instr = p.instr + instructionCount [ev] ∧
      p'.instrMemaccess = if ev.hasMemaddr then p.instrMemaccess else p.instr := by
  obtain ⟨p₁, hp₁, h⟩ := Option.bind_eq_some_iff.mp h
  obtain ⟨hinstr, hmemaccess⟩ := advanceTime_instr hp₁
  by_cases hmem : ev.hasMemaddr = true
  · rw [if_pos hmem] at h ⊢
    obtain ⟨st, -, rfl⟩ := Option.map_eq_some_iff.mp h
    exact ⟨by rw [instructionCount_cons_of_mem hmem]; exact hinstr, hmemaccess⟩
  · rw [if_neg hmem] at h ⊢
    split at h
    · cases h
    · obtain ⟨st, -, rfl⟩ := Option.map_eq_some_iff.mp h
      exact ⟨by rw [instructionCount_cons_of_not_mem hmem]; exact congrArg (· + 1) hinstr, hinstr⟩

theorem importEvents_instr {p' : Progress} (h : events.foldlM (importEvent cfg kind) p = some p')
    (hp : p.instr = p.instrMemaccess + 1) :
    p'.instr = p.instr + instructionCount events ∧ p'.instr = p'.instrMemaccess + 1 := by
  induction events generalizing p with
  | nil => exact (Option.some.inj h) ▸ ⟨rfl, hp⟩
  | cons ev events ih =>
    rw [List.foldlM_cons] at h
    obtain ⟨p₁, hp₁, hrest⟩ := Option.bind_eq_some_iff.mp h
    obtain ⟨hinstr, hmemaccess⟩ := importEvent_instr hp₁
    by_cases hmem : ev.hasMemaddr = true
    · rw [if_pos hmem] at hmemaccess
      rw [instructionCount_cons_of_mem hmem] at hinstr ⊢
      rw [← show p₁.instr = p.instr from hinstr]
      exact ih hrest (hinstr.trans (hmemaccess ▸ hp))
    · rw [if_neg hmem] at hmemaccess
      rw [instructionCount_cons_of_not_mem hmem] at hinstr ⊢
      have hstep := ih hrest (hinstr.trans (hmemaccess ▸ rfl))
      exact ⟨by rw [hstep.1, hinstr, Nat.add_right_comm]; rfl, hstep.2⟩

/-- **The loop over the trace** makes the accesses of the trace. -/
theorem importEvents_refines (hcfg : Inserts cfg) (hkind : kind.Splits)
    (hevents : ∀ ev ∈ events, Importable cfg kind ev) (h : Refines xs p.st)
    (hcount : p.instr + instructionCount events < 2 ^ 32) (hmemaccess : p.instrMemaccess + 1 < 2 ^ 32) :
    ∃ p', events.foldlM (importEvent cfg kind) p = some p' ∧
      Refines (xs ++ kept cfg kind (accesses cfg kind p.instr p.instrMemaccess events)) p'.st ∧
      p'.instr = p.instr + instructionCount events := by
  induction events generalizing xs p with
  | nil => exact ⟨p, rfl, by simpa [accesses, kept] using h, rfl⟩
  | cons ev events ih =>
    have hev := hevents ev List.mem_cons_self
    have hrest := fun ev' hev' => hevents ev' (List.mem_cons_of_mem _ hev')
    obtain ⟨p₁, hp₁, h₁, hinstr₁, hmem₁⟩ := advanceTime_of_importable hev h
    rw [List.foldlM_cons, Option.bind_eq_bind, importEvent, hp₁, Option.bind_some]
    by_cases hmem : ev.hasMemaddr = true
    · rw [instructionCount_cons_of_mem hmem] at hcount ⊢
      obtain ⟨st₂, hst₂, h₂⟩ := h₁.handleMemEvent hcfg (hmem₁ ▸ hmemaccess) hmem hev.fits p₁.curtime
      obtain ⟨p', hp', h', hcount'⟩ := ih (p := { p₁ with ip := ev.ip, st := st₂ }) hrest h₂
        (hinstr₁ ▸ hcount) (hmem₁ ▸ hmemaccess)
      refine ⟨p', ?_, ?_, hinstr₁ ▸ hcount'⟩
      · rw [if_pos hmem, hst₂, Option.map_some, Option.bind_some, hp']
      · rw [accesses, if_pos hmem, kept_append, ← List.append_assoc, ← hmem₁, ← hinstr₁]
        exact h'
    · rw [instructionCount_cons_of_not_mem hmem] at hcount ⊢
      obtain ⟨st₂, hst₂, h₂⟩ := h₁.handleIpEvent hcfg (show p₁.instr + 1 < 2 ^ 32 by omega) hkind hmem
        hev.fits p₁.curtime
      obtain ⟨p', hp', h', hcount'⟩ :=
        ih (p := { p₁ with instrMemaccess := p₁.instr, instr := p₁.instr + 1, ip := ev.ip, st := st₂ })
          hrest h₂ (by simp only; omega) (by simp only; omega)
      refine ⟨p', ?_, ?_, by simp only at hcount'; omega⟩
      · rw [if_neg hmem, if_neg (by omega), hst₂, Option.map_some, Option.bind_some, hp']
      · rw [accesses, if_neg hmem, kept_append, ← List.append_assoc, ← hinstr₁]
        exact h'

/-! ## The order of the accesses -/

theorem instr_eq_of_mem_eventAccesses {x : Access ℕ AccessType} (hx : x ∈ eventAccesses cfg kind instr ev) :
    x.instr = instr := by
  rw [eventAccesses] at hx
  split at hx
  · obtain ⟨r, -, hr⟩ := List.mem_flatMap.mp hx
    obtain ⟨a, -, rfl⟩ := List.mem_map.mp hr
    rfl
  · simp at hx

theorem instr_of_mem_accesses {instr current : ℕ} (hle : current ≤ instr) {x : Access ℕ AccessType}
    (hx : x ∈ accesses cfg kind instr current events) :
    current ≤ x.instr ∧ (x.instr = current ∨ x.instr < instr + instructionCount events) := by
  induction events generalizing instr current with
  | nil => simp [accesses] at hx
  | cons ev events ih =>
    rw [accesses] at hx
    by_cases hmem : ev.hasMemaddr = true
    · rw [if_pos hmem] at hx
      rw [instructionCount_cons_of_mem hmem]
      rcases List.mem_append.mp hx with hx | hx
      · have := instr_eq_of_mem_eventAccesses hx
        omega
      · exact ih hle hx
    · rw [if_neg hmem] at hx
      rw [instructionCount_cons_of_not_mem hmem]
      rcases List.mem_append.mp hx with hx | hx
      · have := instr_eq_of_mem_eventAccesses hx
        omega
      · have := ih (Nat.le_succ instr) hx
        omega

theorem accesses_sorted (cfg : Config) (kind : Kind) (events : List TraceEvent) {instr current : ℕ}
    (hle : current ≤ instr) :
    (accesses cfg kind instr current events).Pairwise fun x y => x.instr ≤ y.instr := by
  have hevent : ∀ (i : ℕ) (ev : TraceEvent),
      (eventAccesses cfg kind i ev).Pairwise fun x y => x.instr ≤ y.instr := by
    intro i ev
    refine List.pairwise_of_forall_mem_list fun x hx y hy => ?_
    rw [instr_eq_of_mem_eventAccesses hx, instr_eq_of_mem_eventAccesses hy]
  induction events generalizing instr current with
  | nil => exact List.Pairwise.nil
  | cons ev events ih =>
    rw [accesses]
    by_cases hmem : ev.hasMemaddr = true
    · rw [if_pos hmem]
      refine List.pairwise_append.mpr ⟨hevent current ev, ih hle, fun x hx y hy => ?_⟩
      rw [instr_eq_of_mem_eventAccesses hx]
      exact (instr_of_mem_accesses hle hy).1
    · rw [if_neg hmem]
      refine List.pairwise_append.mpr ⟨hevent instr ev, ih (Nat.le_succ instr), fun x hx y hy => ?_⟩
      rw [instr_eq_of_mem_eventAccesses hx]
      exact (instr_of_mem_accesses (Nat.le_succ instr) hy).1

theorem address_of_mem_accesses (hevents : ∀ ev ∈ events, Importable cfg kind ev) {instr current : ℕ}
    {x : Access ℕ AccessType} (hx : x ∈ accesses cfg kind instr current events) : x.address < 2 ^ 32 := by
  have hevent : ∀ {i : ℕ} {ev : TraceEvent}, Importable cfg kind ev → x ∈ eventAccesses cfg kind i ev →
      x.address < 2 ^ 32 := by
    intro i ev hev hx
    rw [eventAccesses] at hx
    split at hx
    · obtain ⟨r, hr, hx⟩ := List.mem_flatMap.mp hx
      obtain ⟨a, ha, rfl⟩ := List.mem_map.mp hx
      rw [List.mem_range'_1] at ha
      rcases hev.fits r hr with hzero | ⟨-, hend⟩ <;> simp only <;> omega
    · simp at hx
  induction events generalizing instr current with
  | nil => simp [accesses] at hx
  | cons ev events ih =>
    have hev := hevents ev List.mem_cons_self
    have hrest := fun ev' hev' => hevents ev' (List.mem_cons_of_mem _ hev')
    rw [accesses] at hx
    split at hx
    · exact (List.mem_append.mp hx).elim (hevent hev) (ih hrest)
    · exact (List.mem_append.mp hx).elim (hevent hev) (ih hrest)

/-! ## The end of the trace -/

/-- The accesses `xs` are classified, and the addresses `listed` have an open EC as well. -/
structure Opened (xs : List (Access ℕ AccessType)) (listed : List ℕ) (st : Importer) : Prop where
  rows : st.rows.map TraceRow.span = (classes xs).spans
  openAt : ∀ a, (classes xs).openAt a = (st.openEcs[a]?.getD {}).dyninstr
  keys : ∀ a, a ∈ st.openEcs ↔ (∃ x ∈ xs, x.address = a) ∨ a ∈ listed

theorem openUnused_lastInstr (as : List ℕ) (st : Importer) :
    (as.foldl (fun st a => if a ∈ st.openEcs then st else st.newOpenEC a st.timeTraceStart 0 0) st).lastInstr =
      st.lastInstr := by
  induction as generalizing st with
  | nil => rfl
  | cons a as ih =>
    rw [List.foldl_cons, ih]
    split <;> rfl

/-- Opening an address that was not accessed: its class starts with the first instruction, as a missing one
does. -/
theorem dyninstr_openUnused (as : List ℕ) (st : Importer) (a : ℕ) :
    ((as.foldl (fun st a => if a ∈ st.openEcs then st else st.newOpenEC a st.timeTraceStart 0 0)
      st).openEcs[a]?.getD
      {}).dyninstr = (st.openEcs[a]?.getD {}).dyninstr := by
  induction as generalizing st with
  | nil => rfl
  | cons a' as ih =>
    rw [List.foldl_cons, ih]
    split
    · rfl
    · rename_i hmem
      rw [getD_newOpenEC]
      split
      · rename_i heq
        rw [heq, TreeMap.getElem?_eq_none hmem]
        rfl
      · rfl

theorem mem_openUnused (as : List ℕ) (st : Importer) (a : ℕ) :
    a ∈ (as.foldl (fun st a => if a ∈ st.openEcs then st else st.newOpenEC a st.timeTraceStart 0 0) st).openEcs ↔
      a ∈ st.openEcs ∨ a ∈ as := by
  induction as generalizing st with
  | nil => simp
  | cons a' as ih =>
    rw [List.foldl_cons, ih, List.mem_cons, ← or_assoc]
    refine or_congr_left ?_
    split
    · rename_i hmem
      exact (or_iff_left_of_imp fun heq => heq ▸ hmem).symm
    · rw [mem_newOpenEC, or_comm]

/-- **`open_unused_ec_intervals`** opens the addresses that were not accessed from the first instruction
on. -/
theorem Opened.openUnused {listed as : List ℕ} (h : Opened xs listed st) :
    Opened xs (listed ++ as)
      (as.foldl (fun st a => if a ∈ st.openEcs then st else st.newOpenEC a st.timeTraceStart 0 0) st) := by
  refine ⟨?_, fun a => ?_, fun a => ?_⟩
  · rw [openUnused_rows]
    exact h.rows
  · rw [h.openAt, dyninstr_openUnused]
  · rw [mem_openUnused, h.keys, List.mem_append, or_assoc]

/-- **`close_ec_intervals`** closes the open spans. -/
theorem closeEcIntervals_spec (hcfg : Inserts cfg) {es : List (ℕ × Margin)} (st : Importer)
    (c : DefUse ℕ AccessType) (hes : ∀ e ∈ es, e.1 < 2 ^ 32 ∧ c.openAt e.1 = e.2.dyninstr)
    (h : st.rows.map TraceRow.span = c.spans) :
    ∃ st', es.foldlM (closeEcInterval cfg) st = some st' ∧ st'.lastInstr = st.lastInstr ∧
      st'.rows.map TraceRow.span =
        (DefUse.close st.lastInstr cfg.faultspaceRightmargin c (es.map Prod.fst)).spans := by
  induction es generalizing st c with
  | nil => exact ⟨st, rfl, rfl, h⟩
  | cons e es ih =>
    obtain ⟨ha, hopen⟩ := hes e List.mem_cons_self
    have hrest := fun e' he' => hes e' (List.mem_cons_of_mem _ he')
    rw [List.map_cons, DefUse.close_cons, List.foldlM_cons, Option.bind_eq_bind, closeEcInterval,
      DefUse.closeAddress, hopen]
    by_cases hlt : st.lastInstr < e.2.dyninstr
    · obtain ⟨st', hst', hlast, hrows⟩ := ih st c hrest h
      refine ⟨st', ?_, hlast, ?_⟩
      · simp only [if_pos hlt, Option.bind_some, hst']
      · rw [if_neg (Nat.not_le_of_lt hlt)]
        exact hrows
    · obtain ⟨row, hadd, hspan⟩ := addTraceEvent_of_inserts hcfg st e.2
        { dyninstr := st.lastInstr, ip := st.lastIp, time := st.lastTime }
        { ip := st.lastIp, memaddr := some e.1, width := some 1,
          accesstype := some cfg.faultspaceRightmargin } true
      have hrow : row.span = ⟨e.2.dyninstr, st.lastInstr, e.1, cfg.faultspaceRightmargin, false⟩ := by
        rw [hspan]
        show (⟨e.2.dyninstr, st.lastInstr, e.1 % 2 ^ 32, cfg.faultspaceRightmargin, false⟩ :
          Span ℕ AccessType) = _
        rw [Nat.mod_eq_of_lt ha]
      rw [if_pos (Nat.not_lt.mp hlt)]
      obtain ⟨st', hst', hlast, hrows⟩ := ih { st with rows := st.rows ++ [row] }
        { c with spans := c.spans ++
          [⟨e.2.dyninstr, st.lastInstr, e.1, cfg.faultspaceRightmargin, false⟩] } hrest
        (by rw [List.map_append, h, List.map_singleton, hrow])
      exact ⟨st', by simp only [if_neg hlt, hadd, Option.bind_some, hst'], hlast, hrows⟩

/-! ## The theorem -/

/-- The rows of an address that contain a dynamic instruction. -/
def rowsAt (st : Importer) (a t : ℕ) : List TraceRow :=
  st.rows.filter fun row => row.dataAddress = a ∧ row.instr1 ≤ t ∧ t ≤ row.instr2

theorem map_span_rowsAt (st : Importer) (a t : ℕ) : (rowsAt st a t).map TraceRow.span =
    ((st.rows.map TraceRow.span).filter fun s => s.address = a).filter fun s => s.Covers t := by
  rw [List.filter_filter, List.filter_map, rowsAt]
  congr 1
  refine List.filter_congr fun row _ => ?_
  rw [Bool.eq_iff_iff, decide_eq_true_eq, Function.comp_apply, Bool.and_eq_true]
  exact ⟨fun h => ⟨decide_eq_true h.2, decide_eq_true h.1⟩,
    fun h => ⟨of_decide_eq_true h.2, of_decide_eq_true h.1⟩⟩

/-- The import ends, and its rows are the closed classification of the accesses it keeps. -/
theorem copyToDatabase_spans (hcfg : Inserts cfg) (hkind : kind.Splits)
    (hevents : ∀ ev ∈ events, Importable cfg kind ev) (hcount : instructionCount events < 2 ^ 32)
    (hlisted : ∀ a ∈ kind.unusedAddresses cfg, a < 2 ^ 32) :
    ∃ st as, copyToDatabase cfg kind events = some st ∧
      st.lastInstr = (instructionCount events + (2 ^ 32 - 1)) % 2 ^ 32 ∧ as.Nodup ∧
      (∀ a, a ∈ as ↔ (∃ x ∈ kept cfg kind (accesses cfg kind 0 0 events), x.address = a) ∨
        a ∈ kind.unusedAddresses cfg) ∧
      st.rows.map TraceRow.span = (DefUse.close st.lastInstr cfg.faultspaceRightmargin
        (classes (kept cfg kind (accesses cfg kind 0 0 events))) as).spans := by
  obtain ⟨p, hp, hrefines, hinstr⟩ := importEvents_refines hcfg hkind hevents (p := {}) refines_init
    (by simpa using hcount) (by simp)
  simp only [List.nil_append, Nat.zero_add] at hrefines hinstr
  have hend : Opened (kept cfg kind (accesses cfg kind 0 0 events)) [] (endTrace cfg p) :=
    ⟨hrefines.rows, hrefines.openAt, fun a => by rw [endTrace, hrefines.keys]; simp⟩
  have hopened : Opened (kept cfg kind (accesses cfg kind 0 0 events)) (kind.unusedAddresses cfg)
      (openUnusedEcIntervals cfg kind (endTrace cfg p)) := hend.openUnused
  generalize hst : openUnusedEcIntervals cfg kind (endTrace cfg p) = st at hopened
  have hlast : st.lastInstr = (instructionCount events + (2 ^ 32 - 1)) % 2 ^ 32 := by
    rw [← hst, openUnusedEcIntervals, openUnused_lastInstr, endTrace, hinstr]
  have hentries : ∀ e ∈ st.openEcs.toList, e.1 < 2 ^ 32 ∧
      (classes (kept cfg kind (accesses cfg kind 0 0 events))).openAt e.1 = e.2.dyninstr := by
    intro e he
    have hget : st.openEcs[e.1]? = some e.2 := TreeMap.mem_toList_iff_getElem?_eq_some.mp he
    refine ⟨?_, by rw [hopened.openAt, hget, Option.getD_some]⟩
    rcases (hopened.keys e.1).mp (TreeMap.mem_iff_isSome_getElem?.mpr (by rw [hget]; rfl)) with ⟨x, hx, hxa⟩ | ha
    · exact hxa ▸ address_of_mem_accesses hevents (List.mem_filter.mp hx).1
    · exact hlisted e.1 ha
  obtain ⟨st', hclose, hlast', hrows⟩ := closeEcIntervals_spec hcfg st
    (classes (kept cfg kind (accesses cfg kind 0 0 events))) hentries hopened.rows
  refine ⟨st', st.openEcs.keys, ?_, hlast'.trans hlast, TreeMap.nodup_keys, fun a => ?_, ?_⟩
  · rw [copyToDatabase, hp, Option.bind_some, hst, closeEcIntervals, hclose]
  · rw [TreeMap.mem_keys, hopened.keys]
  · rw [hrows, hlast', TreeMap.map_fst_toList_eq_keys]

theorem keeps_of_mem_unusedAddresses (ha : a ∈ kind.unusedAddresses cfg) : kind.keeps cfg a = true := by
  have hmap : a ∈ (cfg.mm.map MemoryMap.elements).getD [] → cfg.isMatching a = true := by
    intro ha
    rw [Config.isMatching]
    cases hmm : cfg.mm with
    | none => rfl
    | some mm =>
      rw [hmm] at ha
      exact decide_eq_true ((Finset.mem_sort _).mp ha)
  cases kind with
  | memory => exact hmap ha
  | instruction instrMap => exact hmap ha
  | register imp => rfl

/-- **The rows are the def/use equivalence classes.** For every trace whose accesses fit the address type
and the column `data_address`, the import ends, and every dynamic instruction `t` up to the last one lies
in exactly one row of an address that was accessed, or listed in the memory map. If the row is real, its
`instr2` is the first instruction at or behind `t` that accesses the address, and its access type is that
of the first access within it; if the row is fake, the address is not accessed from `t` on. -/
theorem equivalence_classes_correct (cfg : Config) (kind : Kind) (events : List TraceEvent)
    (hcfg : Inserts cfg) (hkind : kind.Splits) (hevents : ∀ ev ∈ events, Importable cfg kind ev)
    (hcount : instructionCount events < 2 ^ 32) (hlisted : ∀ a ∈ kind.unusedAddresses cfg, a < 2 ^ 32) :
    ∃ st, copyToDatabase cfg kind events = some st ∧
      st.lastInstr = (instructionCount events + (2 ^ 32 - 1)) % 2 ^ 32 ∧
      ∀ a, (kind.keeps cfg a = true ∧ ∃ x ∈ accesses cfg kind 0 0 events, x.address = a) ∨
          a ∈ kind.unusedAddresses cfg →
        ∀ t ≤ st.lastInstr, ∃ row, rowsAt st a t = [row] ∧
          (row.isFake = false →
            FirstAccess (accesses cfg kind 0 0 events) a t row.instr2 row.accesstype) ∧
          (row.isFake = true → ∀ x ∈ accesses cfg kind 0 0 events, x.address = a → x.instr < t) := by
  obtain ⟨st, as, hrun, hlast, hnodup, has, hspans⟩ :=
    copyToDatabase_spans hcfg hkind hevents hcount hlisted
  refine ⟨st, hrun, hlast, fun a ha t ht => ?_⟩
  have hkeeps : kind.keeps cfg a = true := ha.elim And.left keeps_of_mem_unusedAddresses
  have hmem : a ∈ as := by
    refine (has a).mpr (ha.imp_left ?_)
    rintro ⟨-, x, hx, rfl⟩
    exact ⟨x, List.mem_filter.mpr ⟨hx, hkeeps⟩, rfl⟩
  have hsorted := (accesses_sorted cfg kind events (le_refl 0)).filter fun x => kind.keeps cfg x.address
  have hbound : ∀ x ∈ kept cfg kind (accesses cfg kind 0 0 events), x.instr ≤ st.lastInstr := by
    intro x hx
    have := instr_of_mem_accesses (le_refl 0) (List.mem_filter.mp hx).1
    omega
  obtain ⟨s, hs, hreal, hfake⟩ := DefUse.classified cfg.faultspaceRightmargin hsorted hbound hnodup hmem ht
  have hrows : (rowsAt st a t).map TraceRow.span = [s] := by
    rw [map_span_rowsAt, hspans]
    exact hs
  obtain ⟨row, hrow, rfl⟩ := List.map_eq_singleton_iff.mp hrows
  have hkept : ∀ x ∈ accesses cfg kind 0 0 events, x.address = a → kind.keeps cfg x.address = true :=
    fun x _ hxa => hxa ▸ hkeeps
  refine ⟨row, hrow, fun hnot => ?_, fun hfakeRow x hx hxa => ?_⟩
  · exact (hreal (by simp [TraceRow.span, hnot])).of_filter hkept
  · exact hfake (by simp [TraceRow.span, hfakeRow]) x (List.mem_filter.mpr ⟨hx, hkept x hx hxa⟩) hxa

/-- A word is stored and, by a later instruction, one of its bytes is read and written. -/
def storeTrace : List TraceEvent :=
  [{ ip := 10, timeDelta := some 5 }, { ip := 20, timeDelta := some 1 },
    { ip := 20, memaddr := some 100, width := some 4, accesstype := some .write },
    { ip := 30, timeDelta := some 1 }, { ip := 40, timeDelta := some 1 },
    { ip := 40, memaddr := some 102, width := some 1, accesstype := some .read },
    { ip := 40, memaddr := some 102, width := some 1, accesstype := some .write }, { ip := 50 }]

theorem importable_storeTrace (mm : Option MemoryMap) :
    ∀ ev ∈ storeTrace, Importable { addressBits := 32, mm } .memory ev := by
  intro ev hev
  simp only [storeTrace, List.mem_cons, List.not_mem_nil, or_false] at hev
  rcases hev with rfl | rfl | rfl | rfl | rfl | rfl | rfl | rfl
  all_goals exact ⟨by simp, by simp [Kind.ranges, TraceEvent.hasMemaddr, TraceEvent.getMemaddr,
    TraceEvent.getWidth, ByteRange.Fits]⟩

/-- The classes of a byte that is stored, and of a byte that is only listed in the memory map. -/
theorem equivalence_classes_correct_storeTrace :
    let cfg : Config := { addressBits := 32, mm := some {102, 200} }
    Inserts cfg ∧ Kind.memory.Splits ∧ (∀ ev ∈ storeTrace, Importable cfg .memory ev) ∧
      instructionCount storeTrace < 2 ^ 32 ∧ (∀ a ∈ Kind.memory.unusedAddresses cfg, a < 2 ^ 32) ∧
      ∃ st, copyToDatabase cfg .memory storeTrace = some st ∧ st.lastInstr = 4 ∧
        (∃ row, rowsAt st 102 2 = [row]) ∧ ∃ row, rowsAt st 200 2 = [row] := by
  intro cfg
  have hcfg : Inserts cfg := ⟨rfl, fun _ _ => rfl⟩
  have hevents := importable_storeTrace (some {102, 200})
  have hcount : instructionCount storeTrace < 2 ^ 32 := by decide
  have hlisted : ∀ a ∈ Kind.memory.unusedAddresses cfg, a < 2 ^ 32 := by
    intro a ha
    have hmm : a ∈ ({102, 200} : Finset ℕ) := (Finset.mem_sort _).mp ha
    rw [Finset.mem_insert, Finset.mem_singleton] at hmm
    omega
  refine ⟨hcfg, trivial, hevents, hcount, hlisted, ?_⟩
  obtain ⟨st, hrun, hlast, hclasses⟩ :=
    equivalence_classes_correct cfg .memory storeTrace hcfg trivial hevents hcount hlisted
  have hfour : st.lastInstr = 4 := hlast
  obtain ⟨row, hrow, -⟩ := hclasses 102 (.inl ⟨by decide, ⟨3, 102, .read⟩, by decide, rfl⟩) 2 (by omega)
  have hmm : 200 ∈ ({102, 200} : Finset ℕ) := by decide
  obtain ⟨row', hrow', -⟩ := hclasses 200 (.inr ((Finset.mem_sort _).mpr hmm)) 2 (by omega)
  exact ⟨st, hrun, hfour, ⟨row, hrow⟩, row', hrow'⟩

/-- **A byte outside a supplied memory map has no rows**, although it is accessed. -/
theorem unmapped_byte_has_no_rows :
    let cfg : Config := { addressBits := 32, mm := some {102} }
    Inserts cfg ∧ (∀ ev ∈ storeTrace, Importable cfg .memory ev) ∧
      (∃ x ∈ accesses cfg .memory 0 0 storeTrace, x.address = 100) ∧
      ∃ st, copyToDatabase cfg .memory storeTrace = some st ∧ 1 ≤ st.lastInstr ∧ rowsAt st 100 1 = [] := by
  intro cfg
  refine ⟨⟨rfl, fun _ _ => rfl⟩, importable_storeTrace (some {102}), ⟨⟨1, 100, .write⟩, by decide, rfl⟩, ?_⟩
  have hrun : (copyToDatabase cfg .memory storeTrace).map (fun st => (st.lastInstr, rowsAt st 100 1)) =
      some (4, []) := by decide +kernel
  obtain ⟨st, hst, heq⟩ := Option.map_eq_some_iff.mp hrun
  obtain ⟨hlast, hrows⟩ := Prod.mk.inj heq
  exact ⟨st, hst, by omega, hrows⟩

end FailStar.ImportTrace
