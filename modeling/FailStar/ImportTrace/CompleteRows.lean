import FailStar.Foundations.DefUse
import FailStar.ImportTrace.FailedImports

/-! # Rows without an instruction address

The pruners that sample read `instr2_absolute` of every row for a read, and do not expect it to be `NULL`. The
importers write `NULL` for fake rows at the right margin of the fault space, and for the address zero.

* **`AnyImporter.accesses`** — the accesses of a trace, with the address of the instruction that makes them.
* **`Tracks`** — the importer has classified some accesses: which rows are incomplete, and which classes are
  open.
* **`complete_rows_iff`** — when all rows for reads are complete. -/

namespace FailStar.ImportTrace

open Std

/-! ## The accesses of a trace -/

/-- An access, with its type and the address of the instruction, as it is stored. -/
abbrev CodeAccess := Access ℕ (AccessType × ℕ)

/-- The accessed bytes from `lo` up to and without `hi`. -/
def byteAccesses (cfg : Config) (matching : ℕ → Bool) (instr : ℕ) (ev : TraceEvent) (lo hi : ℕ) :
    List CodeAccess :=
  ((List.range' lo (hi - lo)).filter matching).map fun a => ⟨instr, a, (ev.getAccesstype, cfg.address ev.ip)⟩

/-- The accesses of a memory event. -/
def MemoryImporter.codeAccesses (cfg : Config) (instr : ℕ) (ev : TraceEvent) : List CodeAccess :=
  byteAccesses cfg cfg.isMatching instr ev (cfg.address ev.getMemaddr)
    (cfg.address (ev.getMemaddr + ev.getWidth))

/-- The bytes of an instruction that is fetched. -/
def InstructionImporter.codeAccesses (instrMap : InstrMap) (cfg : Config) (instr : ℕ) (ev : TraceEvent) :
    List CodeAccess :=
  (instrMap.find ev).elim [] fun opcode =>
    byteAccesses cfg cfg.isMatching instr { ev with accesstype := some .read } (cfg.address ev.ip)
      (cfg.address (ev.ip + opcode.length))

namespace RegisterImporter

/-- The accesses to a part of a register. -/
def partAccesses (imp : RegisterImporter) (cfg : Config) (instr : ℕ) (ev : TraceEvent) (accessType : AccessType)
    (info : RegInfo) : List CodeAccess :=
  byteAccesses cfg (fun _ => cfg.isMatching (cfg.address ev.ip)) instr { ev with accesstype := some accessType }
    (cfg.address info.toDataAddress)
    (if imp.doSplitRegisters then cfg.address (info.toDataAddress + info.width / 8)
    else cfg.address (cfg.address info.toDataAddress + 1))

/-- The accesses to a register of the disassembler. -/
def registerAccesses (imp : RegisterImporter) (cfg : Config) (instr : ℕ) (ev : TraceEvent)
    (accessType : AccessType) (reg : ℕ) : List CodeAccess :=
  (imp.getFailRegisterInfo reg).elim [] fun info =>
    if info.id ∈ imp.registerIds then imp.partAccesses cfg instr ev accessType info else []

/-- The accesses of an instruction: the instruction pointer, and the operands. -/
def codeAccesses (imp : RegisterImporter) (cfg : Config) (instr : ℕ) (ev : TraceEvent) : List CodeAccess :=
  (if imp.doIp then
    imp.partAccesses cfg instr ev .read imp.infoPc ++ imp.partAccesses cfg instr ev .write imp.infoPc else []) ++
  (imp.instrMap.find ev).elim [] fun opcode =>
    opcode.regUses.flatMap (imp.registerAccesses cfg instr ev .read) ++
      opcode.regDefs.flatMap (imp.registerAccesses cfg instr ev .write)

end RegisterImporter

/-- The jumps of an instruction, which are reads of the addresses. -/
def RandomJumpImporter.codeAccesses (imp : RandomJumpImporter) (cfg : Config) (instr : ℕ) (ev : TraceEvent) :
    List CodeAccess :=
  if cfg.isMatching (cfg.address ev.ip) && imp.mmFrom.all fun mm => mm.isMatching (cfg.address ev.ip) then
    ((imp.jumpToAddresses.getD []).filter fun a => a ≠ ev.ip).map fun a => ⟨instr, a, (.read, cfg.address ev.ip)⟩
  else []

namespace AnyImporter

/-- The accesses of a memory event. -/
def onMem (imp : AnyImporter) (cfg : Config) (instr : ℕ) (ev : TraceEvent) : List CodeAccess :=
  match imp with
  | plain .memory => MemoryImporter.codeAccesses cfg instr ev
  | plain (.instruction _) => []
  | plain (.register _) => []
  | advancedMemory _ => MemoryImporter.codeAccesses cfg instr ev
  | randomJump _ => []

/-- The accesses of an instruction event. -/
def onIp (imp : AnyImporter) (cfg : Config) (instr : ℕ) (ev : TraceEvent) : List CodeAccess :=
  match imp with
  | plain .memory => []
  | plain (.instruction instrMap) => InstructionImporter.codeAccesses instrMap cfg instr ev
  | plain (.register imp) => imp.codeAccesses cfg instr ev
  | advancedMemory _ => []
  | randomJump imp => imp.codeAccesses cfg instr ev

/-- **The accesses of a trace**, from the instruction with number `instr` on; memory events belong to the
instruction `current`. -/
def accesses (imp : AnyImporter) (cfg : Config) : ℕ → ℕ → List TraceEvent → List CodeAccess
  | _, _, [] => []
  | instr, current, ev :: events =>
    if ev.hasMemaddr then imp.onMem cfg current ev ++ imp.accesses cfg instr current events
    else imp.onIp cfg instr ev ++ imp.accesses cfg (instr + 1) instr events

end AnyImporter

/-! ## The order of the accesses -/

section Order

variable {imp : AnyImporter} {cfg : Config} {instr current : ℕ} {ev : TraceEvent} {x : CodeAccess}

theorem instr_of_mem_byteAccesses {matching : ℕ → Bool} {lo hi : ℕ}
    (hx : x ∈ byteAccesses cfg matching instr ev lo hi) : x.instr = instr := by
  obtain ⟨a, -, rfl⟩ := List.mem_map.mp hx
  rfl

theorem instr_of_mem_onMem (hx : x ∈ imp.onMem cfg instr ev) : x.instr = instr := by
  rcases imp with (_ | _ | _) | _ | _
  · exact instr_of_mem_byteAccesses hx
  · cases hx
  · cases hx
  · exact instr_of_mem_byteAccesses hx
  · cases hx

theorem RegisterImporter.instr_of_mem_registerAccesses {imp : RegisterImporter}
    {accessType : AccessType} {reg : ℕ}
    (hx : x ∈ imp.registerAccesses cfg instr ev accessType reg) : x.instr = instr := by
  rw [registerAccesses] at hx
  cases hinfo : imp.getFailRegisterInfo reg with
  | none => rw [hinfo] at hx; cases hx
  | some info =>
    rw [hinfo, Option.elim_some] at hx
    split at hx
    · exact instr_of_mem_byteAccesses hx
    · cases hx

theorem RegisterImporter.instr_of_mem_codeAccesses {imp : RegisterImporter}
    (hx : x ∈ imp.codeAccesses cfg instr ev) :
    x.instr = instr := by
  rw [codeAccesses] at hx
  rcases List.mem_append.mp hx with hx | hx
  · split at hx
    · exact (List.mem_append.mp hx).elim instr_of_mem_byteAccesses instr_of_mem_byteAccesses
    · cases hx
  · cases hfind : imp.instrMap.find ev with
    | none => rw [hfind] at hx; cases hx
    | some opcode =>
      rw [hfind, Option.elim_some] at hx
      rcases List.mem_append.mp hx with hx | hx
      all_goals
        obtain ⟨reg, -, hx⟩ := List.mem_flatMap.mp hx
        exact instr_of_mem_registerAccesses hx

theorem instr_of_mem_onIp (hx : x ∈ imp.onIp cfg instr ev) : x.instr = instr := by
  rcases imp with (_ | instrMap | imp) | _ | imp
  · cases hx
  · rw [AnyImporter.onIp, InstructionImporter.codeAccesses] at hx
    cases hfind : instrMap.find ev with
    | none => rw [hfind] at hx; cases hx
    | some opcode =>
      rw [hfind] at hx
      exact instr_of_mem_byteAccesses hx
  · exact RegisterImporter.instr_of_mem_codeAccesses hx
  · cases hx
  · rw [AnyImporter.onIp, RandomJumpImporter.codeAccesses] at hx
    split at hx
    · obtain ⟨a, -, rfl⟩ := List.mem_map.mp hx
      rfl
    · cases hx

theorem le_instr_of_mem_accesses {events : List TraceEvent} (hle : current ≤ instr)
    (hx : x ∈ imp.accesses cfg instr current events) : current ≤ x.instr := by
  induction events generalizing instr current with
  | nil => cases hx
  | cons ev events ih =>
    rw [AnyImporter.accesses] at hx
    split at hx
    · rcases List.mem_append.mp hx with hx | hx
      · exact (instr_of_mem_onMem hx).ge
      · exact ih hle hx
    · rcases List.mem_append.mp hx with hx | hx
      · exact hle.trans (instr_of_mem_onIp hx).ge
      · exact hle.trans (ih (Nat.le_succ _) hx)

/-- **The accesses are in the order of the instructions.** -/
theorem AnyImporter.accesses_sorted (imp : AnyImporter) (cfg : Config) {instr current : ℕ}
    (hle : current ≤ instr)
    (events : List TraceEvent) :
    (imp.accesses cfg instr current events).Pairwise fun x y => x.instr ≤ y.instr := by
  induction events generalizing instr current with
  | nil => exact List.Pairwise.nil
  | cons ev events ih =>
    rw [AnyImporter.accesses]
    split
    · refine List.pairwise_append.mpr ⟨List.pairwise_of_forall_mem_list ?_, ih hle, ?_⟩
      · intro x hx y hy
        rw [instr_of_mem_onMem hx, instr_of_mem_onMem hy]
      · intro x hx y hy
        rw [instr_of_mem_onMem hx]
        exact le_instr_of_mem_accesses hle hy
    · refine List.pairwise_append.mpr ⟨List.pairwise_of_forall_mem_list ?_, ih (Nat.le_succ _), ?_⟩
      · intro x hx y hy
        rw [instr_of_mem_onIp hx, instr_of_mem_onIp hy]
      · intro x hx y hy
        rw [instr_of_mem_onIp hx]
        exact le_instr_of_mem_accesses (Nat.le_succ _) hy

end Order

/-! ## Single rows -/

/-- **A row the pruners do not expect**: for a read, without the address of the instruction. -/
def TraceRow.Incomplete (row : TraceRow) : Prop := row.accesstype = .read ∧ row.instr2Absolute = none

/-- A row is incomplete. -/
def Importer.HasIncomplete (st : Importer) : Prop := ∃ row ∈ st.rows, row.Incomplete

theorem absolute_eq_none_iff {ip : ℕ} {isFake : Bool} :
    Importer.absolute ip isFake = none ↔ ip = 0 ∨ isFake = true := by
  rw [Importer.absolute]
  split
  · rename_i h
    exact ⟨fun _ => h, fun _ => rfl⟩
  · rename_i h
    exact iff_of_false (Option.some_ne_none ip) h

/-- **`add_trace_event`** adds an incomplete row for a read at address zero, and for a fake read. -/
theorem hasIncomplete_addTraceEvent {cfg : Config} {st st' : Importer} {left right : Margin} {ev : TraceEvent}
    {isFake : Bool} (h : st.addTraceEvent cfg left right ev isFake = some st') :
    st' = { st with rows := st'.rows } ∧
      (st'.HasIncomplete ↔ st.HasIncomplete ∨ (ev.getAccesstype = .read ∧ (right.ip = 0 ∨ isFake = true))) := by
  rw [Importer.addTraceEvent] at h
  split at h
  · rename_i hskip
    obtain rfl := Option.some.inj h
    refine ⟨rfl, (or_iff_left fun hread => ?_).symm⟩
    rw [hskip.2] at hread
    cases hread.1
  · dsimp only at h
    split at h
    · obtain rfl := Option.some.inj h
      refine ⟨rfl, ?_⟩
      simp only [Importer.HasIncomplete, List.mem_append, List.mem_singleton, or_and_right, exists_or,
        exists_eq_left]
      rw [TraceRow.Incomplete, Importer.traceRow, absolute_eq_none_iff]
    · cases h

/-! ## Classified accesses -/

/-- The classes of the accesses. -/
def codeClasses (xs : List CodeAccess) : DefUse ℕ (AccessType × ℕ) := xs.foldl DefUse.access {}

@[simp] theorem codeClasses_nil : codeClasses [] = {} := rfl

@[simp] theorem codeClasses_concat (xs : List CodeAccess) (x : CodeAccess) :
    codeClasses (xs ++ [x]) = (codeClasses xs).access x := by
  rw [codeClasses, List.foldl_append]
  rfl

/-- A span ends with a read at address zero. -/
def ReadsAtZero (c : DefUse ℕ (AccessType × ℕ)) : Prop := ∃ s ∈ c.spans, s.type = (.read, 0)

theorem readsAtZero_access (c : DefUse ℕ (AccessType × ℕ)) (x : CodeAccess) :
    ReadsAtZero (c.access x) ↔ ReadsAtZero c ∨ (c.openAt x.address ≤ x.instr ∧ x.type = (.read, 0)) := by
  rw [ReadsAtZero, DefUse.spans_access]
  split
  · rename_i hle
    simp only [List.mem_append, List.mem_singleton, or_and_right, exists_or, exists_eq_left, hle, true_and]
    rfl
  · rename_i hlt
    simp only [List.append_nil, hlt, false_and, or_false]
    rfl

/-- **The importer has classified the accesses `xs`**: which rows are incomplete, and where the open classes
start. -/
structure Tracks (xs : List CodeAccess) (st : Importer) : Prop where
  incomplete : st.HasIncomplete ↔ ReadsAtZero (codeClasses xs)
  openAt : ∀ a, (codeClasses xs).openAt a = (st.openEcs[a]?.getD {}).dyninstr
  keys : ∀ a, a ∈ st.openEcs ↔ ∃ x ∈ xs, x.address = a

variable {cfg : Config} {xs : List CodeAccess} {st st' : Importer} {curtime instr : ℕ} {ev : TraceEvent}

theorem tracks_init : Tracks [] {} := by
  refine ⟨?_, fun a => ?_, fun a => ?_⟩
  · simp [Importer.HasIncomplete, ReadsAtZero]
  · simp
  · simp

theorem Tracks.congr (h : Tracks xs st) (hrows : st'.rows = st.rows) (hopen : st'.openEcs = st.openEcs) :
    Tracks xs st' := by
  refine ⟨?_, ?_, ?_⟩
  · rw [Importer.HasIncomplete, hrows]
    exact h.incomplete
  · rw [hopen]
    exact h.openAt
  · rw [hopen]
    exact h.keys

theorem exists_mem_concat_iff {x : CodeAccess} {a : ℕ} :
    (∃ y ∈ xs ++ [x], y.address = a) ↔ a = x.address ∨ ∃ y ∈ xs, y.address = a := by
  simp only [List.mem_append, List.mem_singleton, or_and_right, exists_or, exists_eq_left]
  rw [or_comm, eq_comm]

/-- **One byte of the inner loop is one access.** -/
theorem Tracks.addByte (h : Tracks xs st) (hinstr : instr + 1 < 2 ^ 32) {matching : ℕ → Bool} {width a : ℕ}
    (hm : matching a = true) (hadd : st.addByte cfg matching curtime instr ev width a = some st') :
    Tracks (xs ++ [⟨instr, a, (ev.getAccesstype, cfg.address ev.ip)⟩]) st' := by
  have hopen : (codeClasses xs).openAt a = (st.getOpenEC a).1.dyninstr := h.openAt a
  have hkeys : ∀ a', a' ∈ (st.getOpenEC a).2.openEcs ↔
      ∃ y ∈ xs ++ [⟨instr, a, (ev.getAccesstype, cfg.address ev.ip)⟩], y.address = a' := by
    intro a'
    rw [mem_getOpenEC, h.keys, exists_mem_concat_iff]
  rw [addByte_of_matching hm] at hadd
  split at hadd
  · -- the instruction has accessed the address before
    rename_i hlt
    obtain rfl := Option.some.inj hadd
    have hsame : codeClasses (xs ++ [⟨instr, a, (ev.getAccesstype, cfg.address ev.ip)⟩]) = codeClasses xs := by
      rw [codeClasses_concat, DefUse.access, if_neg (Nat.not_le_of_lt (hopen ▸ hlt))]
    refine ⟨?_, fun a' => ?_, hkeys⟩
    · rw [hsame]
      exact h.incomplete
    · rw [hsame, h.openAt, getD_getOpenEC]
  · rename_i hle
    obtain ⟨st₁, hrow, rfl⟩ := Option.map_eq_some_iff.mp hadd
    obtain ⟨hst₁, hincomplete⟩ := hasIncomplete_addTraceEvent hrow
    have hle' : (codeClasses xs).openAt a ≤ instr := by omega
    have hopen₁ : st₁.openEcs = (st.getOpenEC a).2.openEcs := by rw [hst₁]
    refine ⟨?_, fun a' => ?_, fun a' => ?_⟩
    · rw [codeClasses_concat, readsAtZero_access, ← h.incomplete]
      refine hincomplete.trans (or_congr Iff.rfl ?_)
      simp only [hle', true_and, Bool.false_eq_true, or_false, Prod.mk.injEq]
      rfl
    · rw [codeClasses_concat, getD_newOpenEC, DefUse.openAt_access, Nat.mod_eq_of_lt hinstr]
      by_cases ha : a' = a
      · rw [if_pos ha, if_pos ha, ha]
        exact max_eq_right (hle'.trans (Nat.le_succ _))
      · rw [if_neg ha, if_neg ha, hopen₁, getD_getOpenEC, h.openAt]
    · rw [mem_newOpenEC, hopen₁, hkeys, or_iff_right_of_imp]
      rintro rfl
      exact ⟨_, List.mem_append_right _ (List.mem_singleton_self _), rfl⟩

/-- **Loops**: if every iteration makes some accesses, the loop makes all of them. -/
theorem accesses_foldlM {σ β : Type} {T : List CodeAccess → σ → Prop} {f : σ → β → Option σ}
    {g : β → List CodeAccess}
    {bs : List β} {s s' : σ} (hstep : ∀ b ∈ bs, ∀ xs s s', T xs s → f s b = some s' → T (xs ++ g b) s')
    (h : T xs s) (hrun : bs.foldlM f s = some s') : T (xs ++ bs.flatMap g) s' := by
  induction bs generalizing xs s with
  | nil =>
    obtain rfl := Option.some.inj hrun
    rwa [List.flatMap_nil, List.append_nil]
  | cons b bs ih =>
    rw [List.foldlM_cons] at hrun
    obtain ⟨s₁, hfirst, hrun⟩ := Option.bind_eq_some_iff.mp hrun
    obtain ⟨hb, hbs⟩ := List.forall_mem_cons.mp hstep
    rw [List.flatMap_cons, ← List.append_assoc]
    exact ih hbs (hb xs s s₁ h hfirst) hrun

/-- **Loops that skip**: every address that is not skipped is accessed once. -/
theorem accesses_foldlM_filter {σ : Type} {T : List CodeAccess → σ → Prop} {f : σ → ℕ → Option σ}
    {keep : ℕ → Bool} {g : ℕ → CodeAccess} {as : List ℕ} {s s' : σ}
    (hkeep : ∀ a xs s s', keep a = true → T xs s → f s a = some s' → T (xs ++ [g a]) s')
    (hskip : ∀ a s s', keep a = false → f s a = some s' → s = s') (h : T xs s) (hrun : as.foldlM f s = some s') :
    T (xs ++ (as.filter keep).map g) s' := by
  induction as generalizing xs s with
  | nil =>
    obtain rfl := Option.some.inj hrun
    rwa [List.filter_nil, List.map_nil, List.append_nil]
  | cons a as ih =>
    rw [List.foldlM_cons] at hrun
    obtain ⟨s₁, hfirst, hrun⟩ := Option.bind_eq_some_iff.mp hrun
    cases ha : keep a with
    | false =>
      obtain rfl := hskip a s s₁ ha hfirst
      rw [List.filter_cons_of_neg (by simp [ha])]
      exact ih h hrun
    | true =>
      rw [List.filter_cons_of_pos ha, List.map_cons, List.append_cons]
      exact ih (hkeep a xs s s₁ ha h hfirst) hrun

/-- **The loop over all accessed bytes.** -/
theorem Tracks.addBytes (h : Tracks xs st) (hinstr : instr + 1 < 2 ^ 32) {matching : ℕ → Bool} {width lo hi : ℕ}
    (hadd : st.addBytes cfg matching curtime instr ev width lo hi = some st') :
    Tracks (xs ++ byteAccesses cfg matching instr ev lo hi) st' := by
  refine accesses_foldlM_filter
    (fun a xs st st' hm (h : Tracks xs st) hbyte => h.addByte hinstr hm hbyte) ?_ h hadd
  intro a st st' hm hbyte
  rw [Importer.addByte, if_neg (by simp [hm])] at hbyte
  exact Option.some.inj hbyte

/-! ## Events -/

section Register

variable {imp : RegisterImporter} {accessType : AccessType}

theorem Tracks.addRegisterTrace (h : Tracks xs st) (hinstr : instr + 1 < 2 ^ 32) {info : RegInfo}
    (hadd : imp.addRegisterTrace cfg curtime instr ev accessType st info = some st') :
    Tracks (xs ++ imp.partAccesses cfg instr ev accessType info) st' := by
  rw [RegisterImporter.addRegisterTrace] at hadd
  rw [RegisterImporter.partAccesses]
  dsimp only at hadd
  split at hadd
  · rename_i hsplit
    rw [if_pos hsplit]
    exact h.addBytes hinstr hadd
  · rename_i hsplit
    rw [if_neg hsplit]
    exact h.addBytes hinstr hadd

theorem Tracks.addRegister (h : Tracks xs st) (hinstr : instr + 1 < 2 ^ 32) {reg : ℕ}
    (hadd : imp.addRegister cfg curtime instr ev accessType st reg = some st') :
    Tracks (xs ++ imp.registerAccesses cfg instr ev accessType reg) st' := by
  rw [RegisterImporter.addRegister] at hadd
  rw [RegisterImporter.registerAccesses]
  cases hinfo : imp.getFailRegisterInfo reg with
  | none =>
    rw [hinfo] at hadd
    obtain rfl := Option.some.inj hadd
    rwa [Option.elim_none, List.append_nil]
  | some info =>
    rw [hinfo] at hadd
    rw [Option.elim_some]
    dsimp only at hadd
    split at hadd
    · rename_i hmem
      rw [if_pos hmem]
      exact h.addRegisterTrace hinstr hadd
    · rename_i hmem
      obtain rfl := Option.some.inj hadd
      rwa [if_neg hmem, List.append_nil]

theorem Tracks.addInstructionPointer (h : Tracks xs st) (hinstr : instr + 1 < 2 ^ 32)
    (hadd : imp.addInstructionPointer cfg curtime instr ev st = some st') :
    Tracks (xs ++ if imp.doIp then
      imp.partAccesses cfg instr ev .read imp.infoPc ++ imp.partAccesses cfg instr ev .write imp.infoPc
        else []) st' := by
  rw [RegisterImporter.addInstructionPointer] at hadd
  split at hadd
  · rename_i hdo
    obtain ⟨st₁, hread, hwrite⟩ := Option.bind_eq_some_iff.mp hadd
    rw [if_pos hdo, ← List.append_assoc]
    exact (h.addRegisterTrace hinstr hread).addRegisterTrace hinstr hwrite
  · rename_i hdo
    obtain rfl := Option.some.inj hadd
    rwa [if_neg hdo, List.append_nil]

theorem Tracks.registerEvent (h : Tracks xs st) (hinstr : instr + 1 < 2 ^ 32)
    (hev : imp.handleIpEvent cfg st curtime instr ev = some st') :
    Tracks (xs ++ imp.codeAccesses cfg instr ev) st' := by
  rw [RegisterImporter.handleIpEvent] at hev
  obtain ⟨st₁, hpc, hev⟩ := Option.bind_eq_some_iff.mp hev
  have h₁ := h.addInstructionPointer hinstr hpc
  rw [RegisterImporter.codeAccesses, ← List.append_assoc]
  cases hfind : imp.instrMap.find ev with
  | none =>
    rw [hfind] at hev
    obtain rfl := Option.some.inj hev
    rwa [Option.elim_none, List.append_nil]
  | some opcode =>
    rw [hfind] at hev
    obtain ⟨st₂, huses, hdefs⟩ := Option.bind_eq_some_iff.mp hev
    have h₂ :=
      accesses_foldlM (fun reg _ xs st st' (h : Tracks xs st) hadd => h.addRegister hinstr hadd) h₁ huses
    rw [Option.elim_some, ← List.append_assoc]
    exact accesses_foldlM (fun reg _ xs st st' (h : Tracks xs st) hadd => h.addRegister hinstr hadd) h₂ hdefs

end Register

/-- **An instruction event** makes its accesses. -/
theorem Tracks.ipEvent (h : Tracks xs st) (hinstr : instr + 1 < 2 ^ 32) {kind : Kind}
    (hev : kind.handleIpEvent cfg st curtime instr ev = some st') :
    Tracks (xs ++ (AnyImporter.plain kind).onIp cfg instr ev) st' := by
  cases kind with
  | memory =>
    obtain rfl := Option.some.inj hev
    rwa [AnyImporter.onIp, List.append_nil]
  | instruction instrMap =>
    rw [Kind.handleIpEvent, InstructionImporter.handleIpEvent] at hev
    rw [AnyImporter.onIp, InstructionImporter.codeAccesses]
    cases hfind : instrMap.find ev with
    | none =>
      rw [hfind] at hev
      obtain rfl := Option.some.inj hev
      rwa [Option.elim_none, List.append_nil]
    | some opcode =>
      rw [hfind] at hev
      exact h.addBytes hinstr hev
  | register imp => exact h.registerEvent hinstr hev

/-- **A memory event** makes its accesses. -/
theorem Tracks.memEvent (h : Tracks xs st) (hinstr : instr + 1 < 2 ^ 32) {kind : Kind}
    (hev : kind.handleMemEvent cfg st curtime instr ev = some st') :
    Tracks (xs ++ (AnyImporter.plain kind).onMem cfg instr ev) st' := by
  cases kind with
  | memory => exact h.addBytes hinstr hev
  | instruction instrMap =>
    obtain rfl := Option.some.inj hev
    rwa [AnyImporter.onMem, List.append_nil]
  | register imp =>
    obtain rfl := Option.some.inj hev
    rwa [AnyImporter.onMem, List.append_nil]

/-- The numbers of instructions are 32-bit numbers. -/
structure Progress.Numbered (p : Progress) : Prop where
  instr : p.instr < 2 ^ 32
  current : p.instrMemaccess + 1 < 2 ^ 32

/-- **The loop over all events** makes the accesses of the trace. -/
theorem Tracks.importEvents {kind : Kind} {events : List TraceEvent} {p p' : Progress} (h : Tracks xs p.st)
    (hp : p.Numbered) (hrun : events.foldlM (importEvent cfg kind) p = some p') :
    Tracks (xs ++ (AnyImporter.plain kind).accesses cfg p.instr p.instrMemaccess events) p'.st ∧
      p'.instr = p.instr + instructionCount events := by
  induction events generalizing xs p with
  | nil =>
    obtain rfl := Option.some.inj hrun
    rw [AnyImporter.accesses, List.append_nil]
    exact ⟨h, rfl⟩
  | cons ev events ih =>
    rw [List.foldlM_cons] at hrun
    obtain ⟨p₂, hev, hrun⟩ := Option.bind_eq_some_iff.mp hrun
    obtain ⟨p₁, htime, hev⟩ := Option.bind_eq_some_iff.mp hev
    obtain ⟨hrows, hopen, hinstr, hcurrent⟩ := advanceTime_keeps htime
    have h₁ := h.congr hrows hopen
    rw [AnyImporter.accesses, ← hinstr, ← hcurrent]
    have hp₁ : p₁.instr < 2 ^ 32 ∧ p₁.instrMemaccess + 1 < 2 ^ 32 := ⟨hinstr ▸ hp.instr, hcurrent ▸ hp.current⟩
    split at hev
    · -- a memory event belongs to the instruction before it
      rename_i hmem
      obtain ⟨st₂, hhandle, rfl⟩ := Option.map_eq_some_iff.mp hev
      rw [if_pos hmem, ← List.append_assoc, instructionCount_cons_of_mem hmem]
      exact ih (p := { p₁ with ip := ev.ip, st := st₂ }) (h₁.memEvent hp₁.2 hhandle) ⟨hp₁.1, hp₁.2⟩ hrun
    · rename_i hmem
      split at hev
      · cases hev
      · rename_i hmax
        have hnext : p₁.instr + 1 < 2 ^ 32 := by omega
        obtain ⟨st₂, hhandle, rfl⟩ := Option.map_eq_some_iff.mp hev
        obtain ⟨h', hcount⟩ := ih (h₁.ipEvent hnext hhandle) ⟨hnext, hnext⟩ hrun
        rw [if_neg hmem, ← List.append_assoc, instructionCount_cons_of_not_mem hmem]
        exact ⟨h', hcount.trans (Nat.add_right_comm _ _ _)⟩

/-! ## Delayed events -/

section Delayed

open AdvancedMemoryImporter

/-- The accesses of a delayed entry. -/
def DelayedTraceEntry.codeAccesses (cfg : Config) (entry : DelayedTraceEntry) : List CodeAccess :=
  MemoryImporter.codeAccesses cfg entry.instr entry.ev

theorem Tracks.tryMemEvent (h : Tracks xs st) (hdb : cfg.Accepts) (data : TraceEvent → Bool → List (Option ℕ))
    (entry : DelayedTraceEntry) (hinstr : entry.instr + 1 < 2 ^ 32) :
    Tracks (xs ++ entry.codeAccesses cfg)
      (MemoryImporter.tryMemEvent
        { cfg with databaseInsertData := data } st entry.curtime entry.instr entry.ev).1 := by
  have hdb' : Config.Accepts { cfg with databaseInsertData := data } := hdb
  obtain ⟨hok, -⟩ := records_tryMemEvent hdb' entry st
  have hsome :=
    MemoryImporter.handleMemEvent_eq_succeeded { cfg with databaseInsertData := data } st entry.curtime
    entry.instr entry.ev
  rw [succeeded, if_pos hok] at hsome
  have haccesses := h.addBytes hinstr hsome
  exact haccesses

/-- **The entries that are inserted** make their accesses; the others are still delayed. -/
theorem Tracks.insertDelayedEntries (hdb : cfg.Accepts) (branchesTaken : List Bool) (finalizing : Bool)
    {entries : List DelayedTraceEntry} (h : Tracks xs st)
    (hentries : ∀ entry ∈ entries, entry.instr + 1 < 2 ^ 32) :
    ∃ done, entries = done ++ (insertDelayedEntries cfg branchesTaken finalizing entries st).1 ∧
      Tracks (xs ++ done.flatMap (DelayedTraceEntry.codeAccesses cfg))
        (insertDelayedEntries cfg branchesTaken finalizing entries st).2 ∧
      (finalizing = true → (insertDelayedEntries cfg branchesTaken finalizing entries st).1 = []) := by
  induction entries generalizing xs st with
  | nil => exact ⟨[], rfl, by rwa [List.flatMap_nil, List.append_nil], fun _ => rfl⟩
  | cons entry entries ih =>
    obtain ⟨hentry, hothers⟩ := List.forall_mem_cons.mp hentries
    rw [AdvancedMemoryImporter.insertDelayedEntries]
    split
    · have h₁ := h.tryMemEvent hdb
        (databaseInsertData entry.opcode (branchmask branchesTaken entry.branchesBefore)) entry hentry
      obtain ⟨done, hdone, h₂, hall⟩ := ih h₁ hothers
      refine ⟨entry :: done, congrArg (entry :: ·) hdone, ?_, hall⟩
      rw [List.flatMap_cons, ← List.append_assoc]
      exact h₂
    · rename_i hwait
      refine ⟨[], rfl, by rwa [List.flatMap_nil, List.append_nil], fun hfinal => absurd ?_ hwait⟩
      rw [hfinal, released, Bool.or_true]

/-- The accesses up to now have been classified, or belong to a delayed entry. -/
structure TracksDelayed (cfg : Config) (all : List CodeAccess) (q : Delaying) : Prop where
  tracks : ∃ xs, Tracks xs q.st ∧
    all = xs ++ q.history.delayedEntries.flatMap (DelayedTraceEntry.codeAccesses cfg)
  entries : ∀ entry ∈ q.history.delayedEntries, entry.instr + 1 < 2 ^ 32
  numbered : q.toProgress.Numbered

variable {instrMap : InstrMap} {all : List CodeAccess} {q q' : Delaying}

theorem tracksDelayed_init : TracksDelayed cfg [] {} :=
  ⟨⟨[], tracks_init, rfl⟩, by simp, ⟨by decide, by decide⟩⟩

/-- **One event.** -/
theorem TracksDelayed.importEvent (h : TracksDelayed cfg all q) (hdb : cfg.Accepts)
    (hstep : AdvancedMemoryImporter.importEvent cfg instrMap q ev = some q') :
    TracksDelayed cfg
      (all ++ if ev.hasMemaddr then MemoryImporter.codeAccesses cfg q.instrMemaccess ev else []) q' ∧
      (if ev.hasMemaddr then q'.instr = q.instr ∧ q'.instrMemaccess = q.instrMemaccess
        else q'.instr = q.instr + 1 ∧ q'.instrMemaccess = q.instr) := by
  obtain ⟨⟨xs, htracks, hall⟩, hentries, hp⟩ := h
  rw [AdvancedMemoryImporter.importEvent] at hstep
  obtain ⟨p₁, htime, hstep⟩ := Option.bind_eq_some_iff.mp hstep
  obtain ⟨hrows, hopen, hinstr, hcurrent⟩ := advanceTime_keeps htime
  have h₁ := htracks.congr hrows hopen
  have hp₁ : p₁.instr < 2 ^ 32 ∧ p₁.instrMemaccess + 1 < 2 ^ 32 := ⟨hinstr ▸ hp.instr, hcurrent ▸ hp.current⟩
  split at hstep
  · -- the memory event is delayed
    rename_i hmem
    obtain ⟨history, hhandle, rfl⟩ := Option.map_eq_some_iff.mp hstep
    rw [AdvancedMemoryImporter.handleMemEvent] at hhandle
    split at hhandle
    · obtain ⟨opcode, -, rfl⟩ := Option.map_eq_some_iff.mp hhandle
      rw [if_pos hmem, if_pos hmem]
      refine ⟨⟨⟨xs, h₁, ?_⟩, ?_, hp₁.1, hp₁.2⟩, hinstr, hcurrent⟩
      · rw [hall, List.flatMap_append, List.flatMap_singleton, List.append_assoc, ← hcurrent]
        rfl
      · intro entry hentry
        rcases List.mem_append.mp hentry with hentry | hentry
        · exact hentries entry hentry
        · rw [List.mem_singleton.mp hentry]
          exact hp₁.2
    · cases hhandle
  · rename_i hmem
    split at hstep
    · cases hstep
    · rename_i hmax
      have hnext : p₁.instr + 1 < 2 ^ 32 := by omega
      obtain rfl := Option.some.inj hstep
      rw [← learnBranch_delayedEntries q.history ev] at hentries hall
      obtain ⟨done, hdone, h₂, -⟩ :=
        h₁.insertDelayedEntries hdb (learnBranch q.history ev).branchesTaken false hentries
      rw [if_neg hmem, if_neg hmem, List.append_nil]
      refine ⟨⟨⟨_, h₂, ?_⟩, ?_, hnext, hnext⟩, congrArg (· + 1) hinstr, hinstr⟩
      all_goals rw [(noteBranch_keeps _ _ _ _).2.1]
      · rw [List.append_assoc, ← List.flatMap_append, ← hdone, hall]
      · intro entry hentry
        exact hentries entry (hdone ▸ List.mem_append_right done hentry)

/-- **The loop over all events.** -/
theorem TracksDelayed.importEvents {events : List TraceEvent} (h : TracksDelayed cfg all q) (hdb : cfg.Accepts)
    (hrun : events.foldlM (AdvancedMemoryImporter.importEvent cfg instrMap) q = some q') :
    TracksDelayed cfg
        (all ++ (AnyImporter.advancedMemory instrMap).accesses cfg q.instr q.instrMemaccess events) q' ∧
      q'.instr = q.instr + instructionCount events := by
  induction events generalizing all q with
  | nil =>
    obtain rfl := Option.some.inj hrun
    rw [AnyImporter.accesses, List.append_nil]
    exact ⟨h, rfl⟩
  | cons ev events ih =>
    rw [List.foldlM_cons] at hrun
    obtain ⟨q₁, hstep, hrun⟩ := Option.bind_eq_some_iff.mp hrun
    obtain ⟨h₁, hnumbers⟩ := h.importEvent hdb hstep
    obtain ⟨h', hinstr⟩ := ih h₁ hrun
    rw [AnyImporter.accesses]
    -- only a memory event has accesses, those of the instruction before it
    by_cases hmem : ev.hasMemaddr = true
    · rw [if_pos hmem] at hnumbers h'
      rw [if_pos hmem, instructionCount_cons_of_mem hmem, ← hnumbers.1, ← hnumbers.2]
      rw [List.append_assoc, ← hnumbers.2] at h'
      exact ⟨h', hinstr⟩
    · rw [if_neg hmem] at hnumbers h'
      rw [if_neg hmem, instructionCount_cons_of_not_mem hmem]
      rw [List.append_nil, hnumbers.1, hnumbers.2] at h'
      refine ⟨h', ?_⟩
      rw [hinstr, hnumbers.1]
      omega

/-- **Behind the trace** all entries have been inserted. -/
theorem TracksDelayed.traceEndReached (h : TracksDelayed cfg all q) (hdb : cfg.Accepts) :
    Tracks all (traceEndReached cfg q).st := by
  obtain ⟨⟨xs, htracks, hall⟩, hentries, -⟩ := h
  obtain ⟨done, hdone, h', hnone⟩ := htracks.insertDelayedEntries hdb q.history.branchesTaken true hentries
  rw [hnone rfl, List.append_nil] at hdone
  rw [← hdone, ← hall] at h'
  exact h'

end Delayed

/-! ## Jumps -/

/-- The jumps `xs` have been recorded. There are no open classes. -/
structure TracksJumps (xs : List CodeAccess) (st : Importer) : Prop where
  incomplete : st.HasIncomplete ↔ ∃ x ∈ xs, x.type = (.read, 0)
  openEcs : st.openEcs = ∅

section Jumps

variable {imp : RandomJumpImporter}

theorem TracksJumps.addJump (h : TracksJumps xs st) {toAddr : ℕ} (hother : toAddr ≠ ev.ip)
    (hadd : RandomJumpImporter.addJump cfg curtime instr ev st toAddr = some st') :
    TracksJumps (xs ++ [⟨instr, toAddr, (.read, cfg.address ev.ip)⟩]) st' := by
  rw [RandomJumpImporter.addJump, if_neg hother] at hadd
  obtain ⟨hst', hincomplete⟩ := hasIncomplete_addTraceEvent hadd
  refine ⟨?_, by rw [hst']; exact h.openEcs⟩
  rw [hincomplete, h.incomplete]
  simp only [List.mem_append, List.mem_singleton, or_and_right, exists_or, exists_eq_left,
    Prod.mk.injEq, true_and, Bool.false_eq_true, or_false]
  exact or_congr_right (and_iff_right rfl)

theorem TracksJumps.ipEvent (h : TracksJumps xs st)
    (hev : imp.handleIpEvent cfg st curtime instr ev = some st') :
    TracksJumps (xs ++ imp.codeAccesses cfg instr ev) st' := by
  rw [RandomJumpImporter.handleIpEvent] at hev
  obtain ⟨addresses, haddresses, hev⟩ := Option.bind_eq_some_iff.mp hev
  rw [RandomJumpImporter.codeAccesses, haddresses, Option.getD_some]
  split at hev
  · rename_i hmatch
    rw [if_pos hmatch]
    refine accesses_foldlM_filter (fun a xs st st' ha (h : TracksJumps xs st) hadd =>
      h.addJump (of_decide_eq_true ha) hadd) ?_ h hev
    -- the jump to the instruction itself is no jump
    intro a st st' ha hadd
    rw [RandomJumpImporter.addJump, if_pos (not_not.mp (of_decide_eq_false ha))] at hadd
    exact Option.some.inj hadd
  · rename_i hmatch
    obtain rfl := Option.some.inj hev
    rwa [if_neg hmatch, List.append_nil]

theorem TracksJumps.importEvents {events : List TraceEvent} {p p' : Progress} (h : TracksJumps xs p.st)
    (hrun : events.foldlM (imp.importEvent cfg) p = some p') :
    TracksJumps (xs ++ (AnyImporter.randomJump imp).accesses cfg p.instr p.instrMemaccess events) p'.st := by
  induction events generalizing xs p with
  | nil =>
    obtain rfl := Option.some.inj hrun
    rwa [AnyImporter.accesses, List.append_nil]
  | cons ev events ih =>
    rw [List.foldlM_cons] at hrun
    obtain ⟨p₂, hev, hrun⟩ := Option.bind_eq_some_iff.mp hrun
    obtain ⟨p₁, htime, hev⟩ := Option.bind_eq_some_iff.mp hev
    obtain ⟨hrows, hopen, hinstr, hcurrent⟩ := advanceTime_keeps htime
    have h₁ : TracksJumps xs p₁.st := by
      refine ⟨?_, hopen.trans h.openEcs⟩
      rw [Importer.HasIncomplete, hrows]
      exact h.incomplete
    rw [AnyImporter.accesses, ← hinstr, ← hcurrent]
    split at hev
    · rename_i hmem
      obtain rfl := Option.some.inj hev
      rw [if_pos hmem, AnyImporter.onMem, List.nil_append]
      exact ih (p := { p₁ with ip := ev.ip }) h₁ hrun
    · rename_i hmem
      split at hev
      · cases hev
      · obtain ⟨st₂, hhandle, rfl⟩ := Option.map_eq_some_iff.mp hev
        rw [if_neg hmem, ← List.append_assoc]
        exact ih (h₁.ipEvent hhandle) hrun

theorem le_instr_of_mem_jumps {events : List TraceEvent} {current : ℕ} {x : CodeAccess}
    (hx : x ∈ (AnyImporter.randomJump imp).accesses cfg instr current events) : instr ≤ x.instr := by
  induction events generalizing instr current with
  | nil => cases hx
  | cons ev events ih =>
    rw [AnyImporter.accesses] at hx
    split at hx
    · exact ih hx
    · rcases List.mem_append.mp hx with hx | hx
      · exact (instr_of_mem_onIp hx).ge
      · exact (Nat.le_succ instr).trans (ih hx)

theorem type_of_mem_onIp {x : CodeAccess} (hx : x ∈ (AnyImporter.randomJump imp).onIp cfg instr ev) :
    x.type = (.read, cfg.address ev.ip) := by
  rw [AnyImporter.onIp, RandomJumpImporter.codeAccesses] at hx
  split at hx
  · obtain ⟨a, -, rfl⟩ := List.mem_map.mp hx
    rfl
  · cases hx

theorem type_eq_of_instr_eq {events : List TraceEvent} {current : ℕ} {x y : CodeAccess}
    (hx : x ∈ (AnyImporter.randomJump imp).accesses cfg instr current events)
    (hy : y ∈ (AnyImporter.randomJump imp).accesses cfg instr current events) (heq : x.instr = y.instr) :
    x.type = y.type := by
  induction events generalizing instr current with
  | nil => cases hx
  | cons ev events ih =>
    rw [AnyImporter.accesses] at hx hy
    split at hx
    · rename_i hmem
      rw [if_pos hmem] at hy
      exact ih hx hy
    · rename_i hmem
      rw [if_neg hmem] at hy
      -- the later instructions have greater numbers
      rcases List.mem_append.mp hx with hx | hx <;> rcases List.mem_append.mp hy with hy | hy
      · rw [type_of_mem_onIp hx, type_of_mem_onIp hy]
      · have := instr_of_mem_onIp hx
        have := le_instr_of_mem_jumps hy
        omega
      · have := instr_of_mem_onIp hy
        have := le_instr_of_mem_jumps hx
        omega
      · exact ih hx hy

end Jumps

/-! ## The end of the trace -/

theorem hasIncomplete_closeEcInterval {e : ℕ × Margin} (h : closeEcInterval cfg st e = some st') :
    st'.lastInstr = st.lastInstr ∧ (st'.HasIncomplete ↔ st.HasIncomplete ∨
      (cfg.faultspaceRightmargin = .read ∧ e.2.dyninstr ≤ st.lastInstr)) := by
  rw [closeEcInterval] at h
  dsimp only at h
  split at h
  · rename_i hlt
    obtain rfl := Option.some.inj h
    exact ⟨rfl, (or_iff_left fun hread => Nat.not_le_of_lt hlt hread.2).symm⟩
  · rename_i hle
    obtain ⟨hst', hincomplete⟩ := hasIncomplete_addTraceEvent h
    refine ⟨by rw [hst'], hincomplete.trans (or_congr_right ?_)⟩
    exact ⟨fun hread => ⟨hread.1, Nat.not_lt.mp hle⟩, fun hread => ⟨hread.1, Or.inr rfl⟩⟩

theorem hasIncomplete_closeAll {es : List (ℕ × Margin)} (h : es.foldlM (closeEcInterval cfg) st = some st') :
    st'.HasIncomplete ↔ st.HasIncomplete ∨
      (cfg.faultspaceRightmargin = .read ∧ ∃ e ∈ es, e.2.dyninstr ≤ st.lastInstr) := by
  induction es generalizing st with
  | nil =>
    obtain rfl := Option.some.inj h
    simp
  | cons e es ih =>
    rw [List.foldlM_cons] at h
    obtain ⟨st₁, hfirst, h⟩ := Option.bind_eq_some_iff.mp h
    obtain ⟨hlast, hincomplete⟩ := hasIncomplete_closeEcInterval hfirst
    rw [ih h, hincomplete, hlast, or_assoc, ← and_or_left, List.exists_mem_cons_iff]

/-- **`close_ec_intervals`** adds an incomplete row if the right margin is a read and a class is open. -/
theorem hasIncomplete_closeEcIntervals (h : closeEcIntervals cfg st = some st') :
    st'.HasIncomplete ↔ st.HasIncomplete ∨
      (cfg.faultspaceRightmargin = .read ∧
        ∃ a ∈ st.openEcs, (st.openEcs[a]?.getD {}).dyninstr ≤ st.lastInstr) := by
  rw [hasIncomplete_closeAll h]
  refine or_congr_right (and_congr_right fun _ => ⟨?_, ?_⟩)
  · rintro ⟨e, he, hle⟩
    have hget := TreeMap.mem_toList_iff_getElem?_eq_some.mp he
    refine ⟨e.1, ?_, by rwa [hget]⟩
    rw [← TreeMap.isSome_getElem?_iff_mem, hget]
    rfl
  · rintro ⟨a, ha, hle⟩
    rw [TreeMap.getElem?_eq_some_getElem ha] at hle
    exact ⟨(a, st.openEcs[a]),
      TreeMap.mem_toList_iff_getElem?_eq_some.mpr (TreeMap.getElem?_eq_some_getElem ha), hle⟩

/-! ## The theorem -/

/-- The number of the last instruction, `m_last_instr`. -/
def lastInstruction (events : List TraceEvent) : ℕ := (instructionCount events + (2 ^ 32 - 1)) % 2 ^ 32

/-- An address that is accessed or listed, but not accessed by the last instruction. -/
def OpenBehind (xs : List CodeAccess) (listed : List ℕ) (last : ℕ) : Prop :=
  ∃ a, ((∃ x ∈ xs, x.address = a) ∨ a ∈ listed) ∧ ∀ x ∈ xs, x.address = a → x.instr < last

/-- **A class is open at the end of the trace.** An address of the memory map has one even if it is not accessed;
jumps do not open classes. -/
def AnyImporter.LeavesOpen (imp : AnyImporter) (cfg : Config) (events : List TraceEvent) : Prop :=
  match imp with
  | plain kind =>
    OpenBehind ((plain kind).accesses cfg 0 0 events) (kind.unusedAddresses cfg) (lastInstruction events)
  | advancedMemory instrMap =>
    OpenBehind ((advancedMemory instrMap).accesses cfg 0 0 events) (Kind.memory.unusedAddresses cfg)
      (lastInstruction events)
  | randomJump _ => False

/-- **A read at address zero is recorded**: it is the first access of its instruction to a byte. -/
def AnyImporter.RecordsReadAtZero (imp : AnyImporter) (cfg : Config) (events : List TraceEvent) : Prop :=
  ∃ front x back, imp.accesses cfg 0 0 events = front ++ x :: back ∧ x.type = (.read, 0) ∧
    ∀ y ∈ front, y.address = x.address → y.instr ≠ x.instr

/-- **The end of the import**, for importers with open classes. -/
theorem Tracks.closes {cfg' : Config} {kind : Kind} {p : Progress} {events : List TraceEvent}
    (h : Tracks xs p.st)
    (hsorted : xs.Pairwise fun x y => x.instr ≤ y.instr) (hinstr : p.instr = instructionCount events)
    (hclose : closeEcIntervals cfg' (openUnusedEcIntervals cfg kind (endTrace cfg p)) = some st') :
    st'.HasIncomplete ↔ ReadsAtZero (codeClasses xs) ∨
      (cfg'.faultspaceRightmargin = .read ∧
        OpenBehind xs (kind.unusedAddresses cfg) (lastInstruction events)) := by
  rw [hasIncomplete_closeEcIntervals hclose, openUnusedEcIntervals, Importer.HasIncomplete, openUnused_rows,
    openUnused_lastInstr]
  refine or_congr h.incomplete (and_congr_right fun _ => exists_congr fun a => ?_)
  rw [mem_openUnused, dyninstr_openUnused]
  refine and_congr (or_congr_left (h.keys a)) ?_
  have hlast : (endTrace cfg p).lastInstr = lastInstruction events := by
    rw [endTrace, hinstr]
    rfl
  rw [hlast, ← (DefUse.consistent_foldl hsorted).openAt_le_iff]
  change _ ↔ (codeClasses xs).openAt a ≤ _
  rw [h.openAt]
  rfl

/-- **Which imports write incomplete rows.** -/
theorem hasIncomplete_iff (imp : AnyImporter) (hdb : cfg.Accepts) {events : List TraceEvent}
    (h : imp.insertRows cfg events = some st) :
    st.HasIncomplete ↔ imp.RecordsReadAtZero cfg events ∨
      (cfg.faultspaceRightmargin = .read ∧ imp.LeavesOpen cfg events) := by
  have hsorted := imp.accesses_sorted cfg (Nat.le_refl 0) events
  cases imp with
  | plain kind =>
    obtain ⟨p, hrun, hclose⟩ := Option.bind_eq_some_iff.mp h
    obtain ⟨htracks, hinstr⟩ := tracks_init.importEvents (p := {}) ⟨by decide, by decide⟩ hrun
    rw [htracks.closes hsorted (hinstr.trans (Nat.zero_add _)) hclose]
    exact or_congr_left (DefUse.exists_span_iff hsorted)
  | advancedMemory instrMap =>
    obtain ⟨q, hrun, hclose⟩ := Option.bind_eq_some_iff.mp h
    obtain ⟨hdelayed, hinstr⟩ := tracksDelayed_init.importEvents hdb hrun
    rw [(hdelayed.traceEndReached hdb).closes hsorted (hinstr.trans (Nat.zero_add _)) hclose]
    exact or_congr_left (DefUse.exists_span_iff hsorted)
  | randomJump imp =>
    obtain ⟨p, hrun, hclose⟩ := Option.bind_eq_some_iff.mp h
    have hinit : TracksJumps [] ({} : Progress).st := ⟨by simp [Importer.HasIncomplete], rfl⟩
    have hjumps := hinit.importEvents hrun
    have hempty : (endTrace cfg p).openEcs = ∅ := hjumps.openEcs
    rw [hasIncomplete_closeEcIntervals hclose]
    simp only [hempty, TreeMap.not_mem_emptyc, false_and, exists_false, and_false, or_false,
      AnyImporter.LeavesOpen]
    refine hjumps.incomplete.trans ⟨?_, ?_⟩
    · -- the first jump of the instruction to the address has the same type
      rintro ⟨x, hx, htype⟩
      have hsame : ∃ y ∈ (AnyImporter.randomJump imp).accesses cfg 0 0 events,
          decide (y.address = x.address ∧ y.instr = x.instr) = true := ⟨x, hx, decide_eq_true ⟨rfl, rfl⟩⟩
      obtain ⟨y, hy⟩ := Option.isSome_iff_exists.mp (List.find?_isSome.mpr hsame)
      obtain ⟨hfound, front, back, hsplit, hbefore⟩ := List.find?_eq_some_iff_append.mp hy
      obtain ⟨haddress, hinstr⟩ := of_decide_eq_true hfound
      refine ⟨front, y, back, hsplit, ?_, fun z hz hza hzi => ?_⟩
      · rw [← htype]
        exact type_eq_of_instr_eq (hsplit ▸ List.mem_append_right _ List.mem_cons_self) hx hinstr
      · have hnot := hbefore z hz
        simp [hza, hzi, haddress, hinstr] at hnot
    · rintro ⟨front, x, back, hsplit, htype, -⟩
      have hx : x ∈ (AnyImporter.randomJump imp).accesses cfg 0 0 events := by
        rw [hsplit]
        exact List.mem_append_right _ List.mem_cons_self
      exact ⟨x, hx, htype⟩

/-- **When all rows for reads are complete.** For all importers, options and traces, every row with access type
`R` has an instruction address exactly if no read at address zero is recorded, and no class is open at the end of
the trace in case the right margin of the fault space is a read. -/
theorem complete_rows_iff (imp : AnyImporter) (cfg : Config) (hdb : cfg.Accepts) (events : List TraceEvent)
    (st : Importer) (h : imp.insertRows cfg events = some st) :
    (∀ row ∈ st.rows, row.accesstype = .read → row.instr2Absolute ≠ none) ↔
      ¬ imp.RecordsReadAtZero cfg events ∧
        (cfg.faultspaceRightmargin = .read → ¬ imp.LeavesOpen cfg events) := by
  have hincomplete := hasIncomplete_iff imp hdb h
  have hcomplete : (∀ row ∈ st.rows, row.accesstype = .read → row.instr2Absolute ≠ none) ↔
      ¬ st.HasIncomplete := by
    constructor
    · rintro hall ⟨row, hrow, hread, hnone⟩
      exact hall row hrow hread hnone
    · intro hnot row hrow hread hnone
      exact hnot ⟨row, hrow, hread, hnone⟩
  rw [hcomplete, hincomplete, not_or, not_and]

/-- A read, with an instruction behind it. -/
def readTrace (ip : ℕ) : List TraceEvent :=
  [{ ip }, { ip, memaddr := some 8, width := some 1, accesstype := some .read }, { ip := ip + 4 }]

/-- The right margin is a write, and the read is not at address zero. -/
theorem complete_rows_readTrace :
    ∃ st, (AnyImporter.plain .memory).insertRows { addressBits := 32 } (readTrace 16) = some st ∧
      st.rows.map TraceRow.instr2Absolute = [some 16, none] ∧
      ¬ (AnyImporter.plain .memory).RecordsReadAtZero { addressBits := 32 } (readTrace 16) := by
  have hrows : ((AnyImporter.plain .memory).insertRows { addressBits := 32 } (readTrace 16)).map
      (fun st => st.rows.map fun row => (row.accesstype, row.instr2Absolute)) =
        some [(.read, some 16), (.write, none)] := by decide +kernel
  obtain ⟨st, hst, hrows⟩ := Option.map_eq_some_iff.mp hrows
  have hpairs : ∀ row ∈ st.rows, (row.accesstype, row.instr2Absolute) ∈
      [(AccessType.read, some 16), (AccessType.write, none)] := by
    intro row hrow
    rw [← hrows]
    exact List.mem_map_of_mem hrow
  have hcomplete : ∀ row ∈ st.rows, row.accesstype = .read → row.instr2Absolute ≠ none := by
    intro row hrow hread hnone
    have hpair := hpairs row hrow
    rw [hread, hnone] at hpair
    exact absurd hpair (by decide)
  refine ⟨st, hst, ?_, ((complete_rows_iff _ _ (fun _ _ => rfl) _ st hst).mp hcomplete).1⟩
  have hsecond := congrArg (List.map Prod.snd) hrows
  rwa [List.map_map] at hsecond

/-- **Rows the sampling pruners do not expect**: one at the right margin, which is a read, and one of an
instruction at address zero. -/
theorem incomplete_rows_written :
    (∃ st, (AnyImporter.plain .memory).insertRows { addressBits := 32, faultspaceRightmargin := .read }
        (readTrace 16) = some st ∧ ∃ row ∈ st.rows, row.accesstype = .read ∧ row.instr2Absolute = none) ∧
    (∃ st, (AnyImporter.plain .memory).insertRows { addressBits := 32 } (readTrace 0) = some st ∧
      ∃ row ∈ st.rows, row.accesstype = .read ∧ row.instr2Absolute = none) := by
  have hmargin : ((AnyImporter.plain .memory).insertRows { addressBits := 32, faultspaceRightmargin := .read }
      (readTrace 16)).map (fun st => st.rows.any fun row => row.accesstype = .read ∧ row.instr2Absolute = none) =
        some true := by decide +kernel
  have hzero : ((AnyImporter.plain .memory).insertRows { addressBits := 32 } (readTrace 0)).map
      (fun st => st.rows.any fun row => row.accesstype = .read ∧ row.instr2Absolute = none) = some true := by
    decide +kernel
  obtain ⟨st, hst, hany⟩ := Option.map_eq_some_iff.mp hmargin
  obtain ⟨st', hst', hany'⟩ := Option.map_eq_some_iff.mp hzero
  obtain ⟨row, hrow, hnull⟩ := List.any_eq_true.mp hany
  obtain ⟨row', hrow', hnull'⟩ := List.any_eq_true.mp hany'
  exact ⟨⟨st, hst, row, hrow, of_decide_eq_true hnull⟩, ⟨st', hst', row', hrow', of_decide_eq_true hnull'⟩⟩

end FailStar.ImportTrace
