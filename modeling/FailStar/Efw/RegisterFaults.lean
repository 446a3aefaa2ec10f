import FailStar.Efw.DatabaseExperiment
import FailStar.ImportTrace.EquivalenceClasses
import FailStar.PruneTrace.BasicPruner

/-! # Faults in registers

A fault in a register is planned by three programs. `RegisterImporter` makes rows of the accesses of an
instruction, with a data address that stands for a byte of a register; `BasicPruner` makes a pilot of every row
that is a read; and `DatabaseExperiment` injects into the register bytes at the data addresses of the pilot. The
importer makes a row of each byte of the accessed part, or only one row of the whole part if it does not split
registers.

* **`RegisterImporter.dataAddresses`** — the loop of `addRegisterTrace`; **`rows_addRegisterTrace`** — its rows.
* **`faults_hit_traced_byte`** — the data address of a byte leads to exactly this byte.
* **`CampaignSetup.job_mem`** — the jobs that are sent for the rows of an access; **`accessBits`** — the bits
  that are injected into for them.
* **`splitting_keeps_bits_iff`** — every row has the width of one byte, so that only the first byte of a part
  that is not split is injected into. -/

namespace FailStar

open ImportTrace PruneTrace Campaign Campaign.DatabaseExperiment

/-! ## The data addresses of an access -/

namespace ImportTrace

/-- The parts of registers that have data addresses of their own. -/
structure RegInfo.Valid (info : RegInfo) : Prop where
  id : info.id < 128
  offset : 8 ∣ info.offset
  width : 8 ∣ info.width
  fits : info.offset + info.width ≤ 64

instance (info : RegInfo) : Decidable info.Valid :=
  decidable_of_iff (info.id < 128 ∧ 8 ∣ info.offset ∧ 8 ∣ info.width ∧ info.offset + info.width ≤ 64)
    ⟨fun h => ⟨h.1, h.2.1, h.2.2.1, h.2.2.2⟩, fun h => ⟨h.id, h.offset, h.width, h.fits⟩⟩

/-- The bits of a part. -/
def RegInfo.bits (info : RegInfo) : Set (ℕ × ℕ) :=
  {x | x.1 = info.id ∧ info.offset ≤ x.2 ∧ x.2 < info.offset + info.width}

/-- `address_t` has 32 or 64 bits. -/
def Config.HasAddressType (cfg : Config) : Prop := cfg.addressBits = 32 ∨ cfg.addressBits = 64

/-- The values of `data_address` in the loop of `addRegisterTrace`. -/
def RegisterImporter.dataAddresses (imp : RegisterImporter) (cfg : Config) (info : RegInfo) : List ℕ :=
  let lo := cfg.address info.toDataAddress
  let hi := if imp.doSplitRegisters then cfg.address (info.toDataAddress + info.width / 8)
    else cfg.address (lo + 1)
  List.range' lo (hi - lo)

/-- `chunk_width`. -/
def RegisterImporter.chunkWidth (imp : RegisterImporter) (info : RegInfo) : ℕ :=
  if imp.doSplitRegisters then 1 else info.width / 8

variable {imp : RegisterImporter} {cfg : Config} {info : RegInfo} {st st' : Importer} {curtime instr : ℕ}
  {ev : TraceEvent} {accessType : AccessType}

theorem addRegisterTrace_eq :
    imp.addRegisterTrace cfg curtime instr ev accessType st info =
      (imp.dataAddresses cfg info).foldlM
        (Importer.addByte cfg (fun _ => cfg.isMatching (cfg.address ev.ip)) curtime instr
          { ev with accesstype := some accessType } (imp.chunkWidth info)) st := by
  rw [RegisterImporter.addRegisterTrace, RegisterImporter.dataAddresses, RegisterImporter.chunkWidth]
  dsimp only
  split
  · rfl
  · rfl

theorem RegInfo.Valid.toDataAddress (h : info.Valid) : info.toDataAddress = 16 * info.id + info.offset / 8 := by
  have hfits := h.fits
  have hlow : info.offset / 8 < 2 ^ 4 := by omega
  rw [RegInfo.toDataAddress, ← Nat.shiftLeft_add_eq_or_of_lt hlow, Nat.shiftLeft_eq, Nat.mul_comm]

theorem RegInfo.Valid.address (h : info.Valid) (hcfg : cfg.HasAddressType) {n : ℕ} (hn : n ≤ 8) :
    cfg.address (info.toDataAddress + n) = 16 * info.id + info.offset / 8 + n := by
  have hid := h.id
  have hfits := h.fits
  have hbound : 2 ^ 32 ≤ 2 ^ cfg.addressBits := by
    refine Nat.pow_le_pow_right (by decide) ?_
    rcases hcfg with h | h
    · omega
    · omega
  rw [h.toDataAddress, Config.address, Nat.mod_eq_of_lt (by omega)]

/-- In split mode, one data address for each byte. -/
theorem RegInfo.Valid.dataAddresses_split (h : info.Valid) (hcfg : cfg.HasAddressType)
    (hsplit : imp.doSplitRegisters = true) :
    imp.dataAddresses cfg info = List.range' (16 * info.id + info.offset / 8) (info.width / 8) := by
  have hfits := h.fits
  have hlo : cfg.address info.toDataAddress = 16 * info.id + info.offset / 8 := h.address hcfg (Nat.zero_le 8)
  rw [RegisterImporter.dataAddresses, if_pos hsplit, hlo, h.address hcfg (by omega), Nat.add_sub_cancel_left]

theorem RegInfo.Valid.dataAddresses_whole (h : info.Valid) (hcfg : cfg.HasAddressType)
    (hsplit : imp.doSplitRegisters = false) :
    imp.dataAddresses cfg info = [16 * info.id + info.offset / 8] := by
  have hlo : cfg.address info.toDataAddress = 16 * info.id + info.offset / 8 := h.address hcfg (Nat.zero_le 8)
  have hhi : cfg.address (16 * info.id + info.offset / 8 + 1) = 16 * info.id + info.offset / 8 + 1 := by
    rw [← h.toDataAddress, h.address hcfg (by decide), h.toDataAddress]
  rw [RegisterImporter.dataAddresses, if_neg (by simp [hsplit]), hlo, hhi, Nat.add_sub_cancel_left]
  rfl

theorem shiftRight_dataAddress {id o : ℕ} (ho : o < 16) : (16 * id + o) >>> 4 = id := by
  rw [Nat.shiftRight_eq_div_pow]
  omega

theorem and_dataAddress {id o : ℕ} (ho : o < 16) : (16 * id + o) &&& 0xf = o := by
  rw [show (0xf : ℕ) = 2 ^ 4 - 1 from rfl, Nat.and_two_pow_sub_one_eq_mod]
  omega

end ImportTrace

/-! ## A fault hits the traced byte -/

section Byte

variable {σ : Type*}

theorem ImportTrace.RegInfo.Valid.fromDataAddress {info : RegInfo} (h : info.Valid) {k : ℕ}
    (hk : k < info.width / 8) :
    RegInfo.fromDataAddress (16 * info.id + info.offset / 8 + k) 1 =
      { id := info.id, width := 8, offset := info.offset + 8 * k } := by
  have hfits := h.fits
  obtain ⟨o, ho⟩ := h.offset
  have hlow : info.offset / 8 + k < 16 := by omega
  rw [RegInfo.fromDataAddress, Nat.add_assoc, shiftRight_dataAddress hlow, and_dataAddress hlow,
    RegInfo.mk.injEq]
  exact ⟨rfl, rfl, by omega⟩

theorem ImportTrace.RegInfo.Valid.register {info : RegInfo} (h : info.Valid) {k : ℕ} (hk : k < info.width / 8) :
    (16 * info.id + info.offset / 8 + k) >>> 4 = info.id := congrArg RegInfo.id (h.fromDataAddress hk)

theorem ImportTrace.RegInfo.Valid.byteOffset {info : RegInfo} (h : info.Valid) {k : ℕ}
    (hk : k < info.width / 8) :
    ((16 * info.id + info.offset / 8 + k) &&& 0xf) * 8 = info.offset + 8 * k :=
  congrArg RegInfo.offset (h.fromDataAddress hk)

theorem ImportTrace.RegInfo.Valid.dataAddress_lt {info : RegInfo} (h : info.Valid) {k : ℕ}
    (hk : k < info.width / 8) :
    16 * info.id + info.offset / 8 + k < 128 <<< 4 := by
  have hid := h.id
  have hfits := h.fits
  rw [Nat.shiftLeft_eq]
  omega

/-- Bochs in long mode, with the bit of the flags set that is always set. -/
def longModeCpu : BochsCPU where
  genReg _ := 0#64
  eflags := 2#32
  longMode := true
  memory _ := 0#8
  vm_eq_false _ := by decide

/-- An importer of a general-purpose register and the flags. -/
def twoRegisters : RegisterImporter :=
  { gpRegisters := [0], flagRegisters := [BochsCPU.ridFlags], ipRegister := BochsCPU.ridPc,
    instrMap := fun _ => none,
    getFailRegisterInfo := fun _ => none }

end Byte

/-! ## The rows of an access -/

namespace ImportTrace

/-- The instruction has not accessed the address yet. -/
def Importer.Fresh (st : Importer) (instr dataAddress : ℕ) : Prop :=
  (st.getOpenEC dataAddress).1.dyninstr ≤ instr

instance (st : Importer) (instr dataAddress : ℕ) : Decidable (st.Fresh instr dataAddress) :=
  inferInstanceAs (Decidable (_ ≤ _))

/-- The rows behind a number of rows. -/
def Importer.rowsSince (st st' : Importer) : List TraceRow := st'.rows.drop st.rows.length

variable {imp : RegisterImporter} {cfg : Config} {info : RegInfo} {st st' : Importer} {curtime instr width : ℕ}
  {ev : TraceEvent} {accessType : AccessType} {matching : ℕ → Bool}

/-- The columns of a row that the pilot and the experiment use. -/
def TraceRow.target (row : TraceRow) : ℕ × ℕ × AccessType := (row.dataAddress, row.width, row.accesstype)

theorem fresh_getOpenEC (st : Importer) (a a' instr : ℕ) :
    (st.getOpenEC a).2.Fresh instr a' ↔ st.Fresh instr a' := by
  change ((st.getOpenEC a).2.openEcs[a']?.getD {}).dyninstr ≤ instr ↔ _
  rw [getD_getOpenEC]
  rfl

theorem fresh_newOpenEC {a a' : ℕ} (hne : a' ≠ a) (st : Importer) (time dyninstr ip instr : ℕ) :
    (st.newOpenEC a time dyninstr ip).Fresh instr a' ↔ st.Fresh instr a' := by
  change ((st.newOpenEC a time dyninstr ip).openEcs[a']?.getD {}).dyninstr ≤ instr ↔ _
  rw [getD_newOpenEC, if_neg hne]
  rfl

/-- **What `add_trace_event` inserts**: a row of one byte, or nothing for a write. -/
theorem addTraceEvent_spec {left right : Margin} {isFake : Bool}
    (h : st.addTraceEvent cfg left right ev isFake = some st') :
    st'.openEcs = st.openEcs ∧ ∃ new, st'.rows = st.rows ++ new ∧ (∀ r ∈ new, r.accesstype = ev.getAccesstype) ∧
      (ev.getAccesstype = .read → new.map TraceRow.target = [(ev.getMemaddr % 2 ^ 32, 1, .read)]) := by
  rw [Importer.addTraceEvent] at h
  split at h
  · -- writes may not be imported
    rename_i hwrite
    obtain rfl := Option.some.inj h
    refine ⟨rfl, [], (List.append_nil _).symm, List.forall_mem_nil _, fun hread => ?_⟩
    exact absurd (hwrite.2.symm.trans hread) (by decide)
  · dsimp only at h
    split at h
    · obtain rfl := Option.some.inj h
      refine ⟨rfl, _, rfl, fun r hr => ?_, fun hread => ?_⟩
      · rw [List.mem_singleton.mp hr]
        rfl
      · exact congrArg (fun t => [(ev.getMemaddr % 2 ^ 32, 1, t)]) hread
    · cases h

/-- **What one iteration does**: it adds a row of one byte if the address is fresh, and keeps all other
addresses. -/
theorem addByte_spec {a : ℕ} (h : st.addByte cfg matching curtime instr ev width a = some st') :
    ∃ new, st'.rows = st.rows ++ new ∧ (∀ r ∈ new, r.accesstype = ev.getAccesstype) ∧
      (ev.getAccesstype = .read → new.map TraceRow.target =
        if matching a = true ∧ st.Fresh instr a then [(a % 2 ^ 32, 1, .read)] else []) ∧
      ∀ a', a' ≠ a → (st'.Fresh instr a' ↔ st.Fresh instr a') := by
  by_cases hm : matching a = true
  · rw [addByte_of_matching hm] at h
    by_cases hfresh : st.Fresh instr a
    · rw [if_neg (Nat.not_lt.mpr hfresh)] at h
      obtain ⟨st₁, hrow, rfl⟩ := Option.map_eq_some_iff.mp h
      obtain ⟨hopen, new, hrows, htype, htarget⟩ := addTraceEvent_spec hrow
      rw [if_pos ⟨hm, hfresh⟩]
      refine ⟨new, hrows, htype, htarget, fun a' hne => ?_⟩
      rw [fresh_newOpenEC hne, ← fresh_getOpenEC st a, Importer.Fresh, Importer.getOpenEC, hopen]
      rfl
    · rw [if_pos (Nat.not_le.mp hfresh)] at h
      obtain rfl := Option.some.inj h
      rw [if_neg fun hall => hfresh hall.2]
      exact ⟨[], (List.append_nil _).symm, List.forall_mem_nil _, fun _ => rfl,
        fun a' _ => fresh_getOpenEC st a a' instr⟩
  · rw [Importer.addByte, if_neg hm] at h
    obtain rfl := Option.some.inj h
    rw [if_neg fun hall => hm hall.1]
    exact ⟨[], (List.append_nil _).symm, fun r hr =>
      absurd hr List.not_mem_nil, fun _ => rfl, fun a' _ => Iff.rfl⟩

/-- **The loop**: the fresh addresses get a row. -/
theorem foldlM_addByte_spec {as : List ℕ} (hnodup : as.Nodup)
    (h : as.foldlM (Importer.addByte cfg matching curtime instr ev width) st = some st') :
    ∃ new, st'.rows = st.rows ++ new ∧ (∀ r ∈ new, r.accesstype = ev.getAccesstype) ∧
      (ev.getAccesstype = .read → new.map TraceRow.target =
        (as.filter fun a => matching a = true ∧ st.Fresh instr a).map fun a => (a % 2 ^ 32, 1, .read)) := by
  induction as generalizing st with
  | nil =>
    obtain rfl := Option.some.inj h
    exact ⟨[], (List.append_nil _).symm, List.forall_mem_nil _, fun _ => rfl⟩
  | cons a as ih =>
    rw [List.foldlM_cons] at h
    obtain ⟨st₁, hfirst, h⟩ := Option.bind_eq_some_iff.mp h
    obtain ⟨ha, has⟩ := List.nodup_cons.mp hnodup
    obtain ⟨new₁, hrows₁, htype₁, htarget₁, hother⟩ := addByte_spec hfirst
    obtain ⟨new₂, hrows₂, htype₂, htarget₂⟩ := ih has h
    refine ⟨new₁ ++ new₂, ?_, List.forall_mem_append.mpr ⟨htype₁, htype₂⟩, fun hread => ?_⟩
    · rw [hrows₂, hrows₁, List.append_assoc]
    · -- the first address is none of the others, which are as fresh as they were
      have hsame : (as.filter fun a => matching a = true ∧ st₁.Fresh instr a) =
          as.filter fun a => matching a = true ∧ st.Fresh instr a := by
        refine List.filter_congr fun a' ha' => ?_
        rw [decide_eq_decide, hother a' fun heq => ha (heq ▸ ha')]
      rw [List.map_append, htarget₁ hread, htarget₂ hread, hsame, List.filter_cons]
      by_cases hfresh : matching a = true ∧ st.Fresh instr a
      · rw [if_pos hfresh, if_pos (decide_eq_true hfresh)]
        rfl
      · rw [if_neg hfresh, if_neg (by simpa using hfresh)]
        rfl

/-- **The rows of an access.** -/
theorem rows_addRegisterTrace (h : imp.addRegisterTrace cfg curtime instr ev accessType st info = some st') :
    (∀ r ∈ st.rowsSince st', r.accesstype = accessType) ∧
      (accessType = .read → (st.rowsSince st').map TraceRow.target =
        ((imp.dataAddresses cfg info).filter fun a => cfg.isMatching (cfg.address ev.ip) = true ∧
          st.Fresh instr a).map
          fun a => (a % 2 ^ 32, 1, .read)) := by
  rw [addRegisterTrace_eq] at h
  obtain ⟨new, hrows, htype, htarget⟩ := foldlM_addByte_spec List.nodup_range' h
  have hsince : st.rowsSince st' = new := by
    rw [Importer.rowsSince, hrows, List.drop_left]
  rw [hsince]
  exact ⟨htype, htarget⟩

end ImportTrace

/-! ## The bits of an access -/

section Access

variable {σ : Type*}

/-- How a variant is injected into: what prunes it, and the campaign that sends the pilots. -/
structure CampaignSetup where
  pruner : BasicPruner
  campaign : DatabaseCampaign
  variant : Variant

/-- The variant is pruned, and registers are injected into. -/
structure CampaignSetup.Injects (setup : CampaignSetup) : Prop where
  variant : setup.variant.id ∈ setup.pruner.variants
  mode : setup.campaign.registerInjectionMode = .auto ∨ setup.campaign.registerInjectionMode = .force

/-- The rows that `BasicPruner` makes pilots of whose outcome is not known. -/
def CampaignSetup.reads (setup : CampaignSetup) (rows : List TraceRow) : List TraceEntry :=
  setup.pruner.reads (rows.map fun r => (setup.variant.id, r))

theorem CampaignSetup.mem_reads {setup : CampaignSetup} {rows : List TraceRow} {t : TraceEntry} :
    t ∈ setup.reads rows ↔
      ∃ r ∈ rows, (setup.variant.id, r) = t ∧ setup.variant.id ∈ setup.pruner.variants ∧
        r.accesstype = .read := by
  constructor
  · intro ht
    obtain ⟨hmem, hvariant, hread⟩ := BasicPruner.mem_reads.mp ht
    obtain ⟨r, hr, rfl⟩ := List.mem_map.mp hmem
    exact ⟨r, hr, rfl, hvariant, hread⟩
  · rintro ⟨r, hr, rfl, hvariant, hread⟩
    exact BasicPruner.mem_reads.mpr ⟨List.mem_map_of_mem hr, hvariant, hread⟩

/-- The job for the pilot of a row. -/
def CampaignSetup.job (setup : CampaignSetup) (pilotId : ℕ) (t : TraceEntry) : DatabaseCampaignMessage :=
  setup.campaign.message setup.variant ((pilotId, setup.pruner.pilotOf 0 t), t)

/-- **The jobs are among those that the campaign sends** once the variant is pruned. -/
theorem CampaignSetup.job_mem {setup : CampaignSetup} (hdelivers : setup.pruner.Delivers)
    (hmethod : setup.campaign.fspmethod setup.pruner.methodId = true) {db : PruneDb} {rows : List TraceRow}
    (hrows : ∀ r ∈ rows, (setup.variant.id, r) ∈ db.trace.rows) :
    ∀ t ∈ setup.reads rows, ∃ pilotId, setup.job pilotId t ∈
      (setup.campaign.pilots
        { db with fsppilot := setup.pruner.pilots db.trace.rows db.fsppilot } setup.variant).map
        (setup.campaign.message setup.variant) := by
  intro t ht
  obtain ⟨r, hr, rfl, hvariant, hread⟩ := CampaignSetup.mem_reads.mp ht
  have hdelivered := (hdelivers _).mem_iff.mpr (BasicPruner.mem_reads.mpr ⟨hrows r hr, hvariant, hread⟩)
  obtain ⟨pilotId, hpilot⟩ := exists_number hdelivered db.fsppilot.next
  refine ⟨pilotId, List.mem_map_of_mem ((List.perm_insertionSort _ _).mem_iff.mpr ?_)⟩
  refine List.mem_flatMap.mpr ⟨(pilotId, setup.pruner.pilotOf 0 (setup.variant.id, r)), ?_, ?_⟩
  · refine List.mem_filter.mpr ⟨?_, decide_eq_true ⟨hmethod, rfl⟩⟩
    rw [BasicPruner.rows_pilots]
    exact List.mem_append_left _ (List.mem_append_right _ (List.mem_map.mpr ⟨_, hpilot, rfl⟩))
  · exact List.mem_map.mpr ⟨_, List.mem_filter.mpr ⟨hrows r hr, decide_eq_true rfl⟩, rfl⟩

/-- **The bits that are injected into** for the rows that an access adds, whatever the numbers of their
pilots. -/
def accessBits (sim : Simulator σ) (s : σ) (setup : CampaignSetup) (st st' : Importer) : Set (ℕ × ℕ) :=
  {x | ∃ t ∈ setup.reads (st.rowsSince st'), ∃ pilotId, x ∈ injectedBits sim s (setup.job pilotId t)}

variable {setup : CampaignSetup} {imp : RegisterImporter} {cfg : Config} {info : RegInfo}
  {st st' : Importer} {curtime instr : ℕ} {ev : TraceEvent} {accessType : AccessType}

/-- Only the fresh addresses of a read get pilots, which have the width of one byte. -/
theorem fresh_of_mem_reads (h : imp.addRegisterTrace cfg curtime instr ev accessType st info = some st')
    {t : TraceEntry} (ht : t ∈ setup.reads (st.rowsSince st')) :
    accessType = .read ∧ cfg.isMatching (cfg.address ev.ip) = true ∧
      ∃ a ∈ imp.dataAddresses cfg info, st.Fresh instr a ∧ t.2.dataAddress = a % 2 ^ 32 ∧ t.2.width = 1 := by
  obtain ⟨htype, htarget⟩ := rows_addRegisterTrace h
  obtain ⟨r, hr, rfl, -, hread⟩ := CampaignSetup.mem_reads.mp ht
  have haccess : accessType = .read := (htype r hr).symm.trans hread
  have hmem : r.target ∈ (st.rowsSince st').map TraceRow.target := List.mem_map_of_mem hr
  rw [htarget haccess] at hmem
  obtain ⟨a, ha, heq⟩ := List.mem_map.mp hmem
  obtain ⟨ha, hfresh⟩ := List.mem_filter.mp ha
  obtain ⟨hmatching, hfresh⟩ := of_decide_eq_true hfresh
  obtain ⟨haddress, hwidth, -⟩ : a % 2 ^ 32 = r.dataAddress ∧ 1 = r.width ∧ _ := by
    simpa only [TraceRow.target, Prod.mk.injEq] using heq
  exact ⟨haccess, hmatching, a, ha, hfresh, haddress.symm, hwidth.symm⟩

/-- Every fresh address of a read gets a pilot. -/
theorem exists_mem_reads (hsetup : setup.Injects)
    (h : imp.addRegisterTrace cfg curtime instr ev accessType st info = some st') (haccess : accessType = .read)
    (hmatching : cfg.isMatching (cfg.address ev.ip) = true) {a : ℕ} (ha : a ∈ imp.dataAddresses cfg info)
    (hfresh : st.Fresh instr a) :
    ∃ t ∈ setup.reads (st.rowsSince st'), t.2.dataAddress = a % 2 ^ 32 ∧ t.2.width = 1 := by
  have hmem : (a % 2 ^ 32, 1, AccessType.read) ∈ (st.rowsSince st').map TraceRow.target := by
    rw [(rows_addRegisterTrace h).2 haccess]
    exact List.mem_map.mpr ⟨a, List.mem_filter.mpr ⟨ha, decide_eq_true ⟨hmatching, hfresh⟩⟩, rfl⟩
  obtain ⟨r, hr, heq⟩ := List.mem_map.mp hmem
  obtain ⟨haddress, hwidth, hread⟩ : r.dataAddress = a % 2 ^ 32 ∧ r.width = 1 ∧ r.accesstype = .read := by
    simpa only [TraceRow.target, Prod.mk.injEq] using heq
  exact ⟨_, CampaignSetup.mem_reads.mpr ⟨r, hr, rfl, hsetup.variant, hread⟩, haddress, hwidth⟩

theorem mem_injectedBits_byte (sim : Simulator σ) (s : σ) (hsetup : setup.Injects) (hvalid : info.Valid)
    {mask : BitVec 64} (hmask : sim.written s info.id = some mask) {k : ℕ} (hk : k < info.width / 8)
    {t : TraceEntry} (haddress : t.2.dataAddress = (16 * info.id + info.offset / 8 + k) % 2 ^ 32)
    (hwidth : t.2.width = 1) (pilotId id i : ℕ) :
    (id, i) ∈ injectedBits sim s (setup.job pilotId t) ↔
      id = info.id ∧ mask.getLsbD i = true ∧ info.offset + 8 * k ≤ i ∧ i < info.offset + 8 * k + 8 := by
  have hfits := hvalid.fits
  have hbound := hvalid.dataAddress_lt hk
  have hdata : (setup.job pilotId t).dataAddress = 16 * info.id + info.offset / 8 + k :=
    haddress.trans (Nat.mod_eq_of_lt (hbound.trans (by decide)))
  have hone : (setup.job pilotId t).dataWidth = 1 := hwidth
  have hwritten : ∀ k' < (setup.job pilotId t).dataWidth,
      sim.written s (((setup.job pilotId t).dataAddress + k') >>> 4) = some mask := by
    intro k' hk'
    obtain rfl : k' = 0 := by omega
    rw [hdata, Nat.add_zero, hvalid.register hk, hmask]
  rw [mem_injectedBits sim s hsetup.mode (by rw [hdata, hone]; exact Nat.succ_le_of_lt hbound)
    (fun _ => mask) hwritten, hdata, hone]
  simp only [Nat.lt_one_iff, exists_eq_left, Nat.add_zero]
  rw [hvalid.register hk, hvalid.byteOffset hk]
  constructor
  · rintro ⟨hbit, -, hid, hlo, hhi⟩
    exact ⟨hid, hbit, hlo, hhi⟩
  · rintro ⟨hid, hbit, hlo, hhi⟩
    exact ⟨hbit, by omega, hid, hlo, hhi⟩

section Bits

variable (sim : Simulator σ) (s : σ) (hsetup : setup.Injects) (hvalid : info.Valid) {mask : BitVec 64}
  (hmask : sim.written s info.id = some mask)
  (h : imp.addRegisterTrace cfg curtime instr ev accessType st info = some st') {n : ℕ} (hn : n ≤ info.width / 8)
  (haddresses : imp.dataAddresses cfg info = List.range' (16 * info.id + info.offset / 8) n)

include hsetup hvalid hmask h hn haddresses

/-- **The bits of an access**: those of the bytes that have a data address, and are fresh, as far as they are
written. -/
theorem mem_accessBits (id i : ℕ) :
    (id, i) ∈ accessBits sim s setup st st' ↔
      accessType = .read ∧ cfg.isMatching (cfg.address ev.ip) = true ∧
        ∃ k < n, st.Fresh instr (16 * info.id + info.offset / 8 + k) ∧ id = info.id ∧ mask.getLsbD i = true ∧
          info.offset + 8 * k ≤ i ∧ i < info.offset + 8 * k + 8 := by
  constructor
  · rintro ⟨t, ht, pilotId, hbits⟩
    obtain ⟨hread, hmatching, a, ha, hfresh, haddress, hwidth⟩ := fresh_of_mem_reads h ht
    rw [haddresses] at ha
    obtain ⟨k, hk, rfl⟩ := List.mem_range'.mp ha
    rw [Nat.one_mul] at hfresh haddress
    refine ⟨hread, hmatching, k, hk, hfresh, ?_⟩
    exact (mem_injectedBits_byte sim s hsetup hvalid hmask
      (Nat.lt_of_lt_of_le hk hn) haddress hwidth pilotId id i).mp
      hbits
  · rintro ⟨hread, hmatching, k, hk, hfresh, hbits⟩
    have ha : 16 * info.id + info.offset / 8 + k ∈ imp.dataAddresses cfg info := by
      rw [haddresses]
      exact List.mem_range'.mpr ⟨k, hk, by rw [Nat.one_mul]⟩
    obtain ⟨t, ht, haddress, hwidth⟩ := exists_mem_reads hsetup h hread hmatching ha hfresh
    refine ⟨t, ht, 0, ?_⟩
    exact (mem_injectedBits_byte sim s hsetup hvalid hmask (Nat.lt_of_lt_of_le hk hn) haddress hwidth 0 id i).mpr
      hbits

/-- A part of one byte, which is fresh and written. -/
theorem accessBits_of_byte (hwritten : ∀ i, (info.id, i) ∈ info.bits → mask.getLsbD i = true)
    (hbyte : info.width = 8) (hone : n = 1) (hread : accessType = .read)
    (hmatching : cfg.isMatching (cfg.address ev.ip) = true)
    (hfresh : st.Fresh instr (16 * info.id + info.offset / 8)) :
    accessBits sim s setup st st' = info.bits := by
  ext ⟨id, i⟩
  have hbits : (id, i) ∈ info.bits ↔ id = info.id ∧ info.offset ≤ i ∧ i < info.offset + 8 := by
    rw [← hbyte]
    exact Iff.rfl
  rw [mem_accessBits sim s hsetup hvalid hmask h hn haddresses, hbits]
  constructor
  · rintro ⟨-, -, k, hk, -, hid, -, hbit⟩
    obtain rfl : k = 0 := by omega
    exact ⟨hid, hbit⟩
  · rintro ⟨hid, hbit⟩
    exact ⟨hread, hmatching, 0, by omega, hfresh, hid, hwritten i (hid ▸ hbits.mpr ⟨hid, hbit⟩), hbit⟩

end Bits

/-- **Whether splitting registers changes what is injected.** The bits that are injected into for an access are
all bits of the accessed part, in split mode as well as with whole registers, if and only if the access is a read
that gets rows at all, because the memory map has its instruction and the instruction has not accessed the byte
before; the part is a single byte; and the simulator stores what is written to all of its bits. The row of a
whole part has the width of one byte. -/
theorem splitting_keeps_bits_iff (sim : Simulator σ) (s : σ) (setup : CampaignSetup) (hsetup : setup.Injects)
    (imp : RegisterImporter) (cfg : Config) (hcfg : cfg.HasAddressType) (curtime instr : ℕ) (ev : TraceEvent)
    (accessType : AccessType) (info : RegInfo) (hvalid : info.Valid) (hwidth : 0 < info.width)
    (mask : BitVec 64) (hmask : sim.written s info.id = some mask)
    (st₁ st₁' st₂ st₂' : Importer)
    (h₁ : RegisterImporter.addRegisterTrace
      { imp with doSplitRegisters := true } cfg curtime instr ev accessType st₁
      info = some st₁')
    (h₂ : RegisterImporter.addRegisterTrace
      { imp with doSplitRegisters := false } cfg curtime instr ev accessType st₂
      info = some st₂') :
    accessBits sim s setup st₁ st₁' = info.bits ∧ accessBits sim s setup st₂ st₂' = info.bits ↔
      (accessType = .read ∧ cfg.isMatching (cfg.address ev.ip) = true ∧ st₁.Fresh instr info.toDataAddress ∧
        st₂.Fresh instr info.toDataAddress) ∧ info.width = 8 ∧
        ∀ i, (info.id, i) ∈ info.bits → mask.getLsbD i = true := by
  obtain ⟨w, hw⟩ := hvalid.width
  have hsplit := fun id i => mem_accessBits sim s hsetup hvalid hmask h₁ le_rfl
    (hvalid.dataAddresses_split hcfg rfl) id i
  have hwhole := fun id i => mem_accessBits sim s (n := 1) hsetup hvalid hmask h₂ (by omega)
    (hvalid.dataAddresses_whole hcfg rfl) id i
  have hfirst : (info.id, info.offset) ∈ info.bits := ⟨rfl, le_rfl, by omega⟩
  have hlast : (info.id, info.offset + (info.width - 1)) ∈ info.bits := ⟨rfl, by omega, by omega⟩
  rw [hvalid.toDataAddress]
  constructor
  · rintro ⟨hbits₁, hbits₂⟩
    rw [← hbits₁, hsplit] at hfirst
    rw [← hbits₂, hwhole] at hlast
    obtain ⟨hread, hmatching, k, -, hfresh₁, -, -, hlo, -⟩ := hfirst
    obtain ⟨-, -, k', hk', hfresh₂, -, -, -, hhi⟩ := hlast
    obtain rfl : k = 0 := by omega
    obtain rfl : k' = 0 := by omega
    refine ⟨⟨hread, hmatching, hfresh₁, hfresh₂⟩, by omega, fun i hi => ?_⟩
    rw [← hbits₁, hsplit] at hi
    obtain ⟨-, -, -, -, -, -, hwritten, -⟩ := hi
    exact hwritten
  · rintro ⟨⟨hread, hmatching, hfresh₁, hfresh₂⟩, hbyte, hwritten⟩
    have hcount : info.width / 8 = 1 := by omega
    exact ⟨accessBits_of_byte sim s hsetup hvalid hmask h₁ le_rfl
      (hvalid.dataAddresses_split hcfg rfl) hwritten hbyte
        hcount hread hmatching hfresh₁,
      accessBits_of_byte sim s hsetup hvalid hmask h₂ hcount.ge
        (hvalid.dataAddresses_whole hcfg rfl) hwritten hbyte rfl
        hread hmatching hfresh₂⟩

/-- A campaign of single-bit flips in the registers of one variant. -/
def flipCampaign : CampaignSetup :=
  { pruner := { methodId := 1, variants := [1] },
    campaign := { fspmethod := fun _ => true, injectBursts := false, registerInjectionMode := .auto },
    variant := { id := 1, variant := "main", benchmark := "bench" } }

theorem flipCampaign_injects : flipCampaign.Injects := ⟨List.mem_singleton_self 1, Or.inl rfl⟩

/-- The importer behind the first read of a part. -/
def behindRead (doSplitRegisters : Bool) (info : RegInfo) : Option Importer :=
  RegisterImporter.addRegisterTrace { twoRegisters with doSplitRegisters } { addressBits := 32 } 5 1
    { ip := 0x100 } .read {} info

/-- A read of AL, which is one byte. -/
theorem splitting_keeps_bits_al :
    ∃ st₁ st₂, behindRead true ⟨0, 8, 0⟩ = some st₁ ∧ behindRead false ⟨0, 8, 0⟩ = some st₂ ∧
      accessBits bochs longModeCpu flipCampaign {} st₁ = RegInfo.bits ⟨0, 8, 0⟩ ∧
      accessBits bochs longModeCpu flipCampaign {} st₂ = RegInfo.bits ⟨0, 8, 0⟩ := by
  obtain ⟨st₁, h₁⟩ : ∃ st, behindRead true ⟨0, 8, 0⟩ = some st := Option.isSome_iff_exists.mp (by decide)
  obtain ⟨st₂, h₂⟩ : ∃ st, behindRead false ⟨0, 8, 0⟩ = some st := Option.isSome_iff_exists.mp (by decide)
  refine ⟨st₁, st₂, h₁, h₂, ?_⟩
  refine (splitting_keeps_bits_iff bochs longModeCpu flipCampaign flipCampaign_injects twoRegisters
    { addressBits := 32 } (Or.inl rfl) 5 1 { ip := 0x100 } .read ⟨0, 8, 0⟩ (by decide) (by decide) _ rfl
      {} st₁ {} st₂ h₁
      h₂).mpr ⟨⟨rfl, by decide, by decide, by decide⟩, rfl, fun i hi => ?_⟩
  rw [BitVec.getLsbD_allOnes, decide_eq_true_eq]
  exact hi.2.2.trans (by decide)

/-- A read of a register of 32 bits: without splitting, nothing is injected into bit 8. -/
theorem whole_register_misses_bit :
    ∃ st₁ st₂, behindRead true { id := 0 } = some st₁ ∧ behindRead false { id := 0 } = some st₂ ∧
      ((0, 8) ∈ RegInfo.bits { id := 0 } ∧
        (0, 8) ∈ accessBits bochs longModeCpu flipCampaign {} st₁) ∧
      (0, 8) ∉ accessBits bochs longModeCpu flipCampaign {} st₂ := by
  obtain ⟨st₁, h₁⟩ : ∃ st, behindRead true { id := 0 } = some st := Option.isSome_iff_exists.mp (by decide)
  obtain ⟨st₂, h₂⟩ : ∃ st, behindRead false { id := 0 } = some st := Option.isSome_iff_exists.mp (by decide)
  have hvalid : RegInfo.Valid { id := 0 } := by decide
  refine ⟨st₁, st₂, h₁, h₂, ⟨⟨rfl, by decide, by decide⟩, ?_⟩, ?_⟩
  · rw [mem_accessBits bochs longModeCpu flipCampaign_injects hvalid rfl h₁ le_rfl
      (hvalid.dataAddresses_split (Or.inl rfl) rfl)]
    exact ⟨rfl, by decide, 1, by decide, by decide, rfl, by decide, by decide, by decide⟩
  · rw [mem_accessBits bochs longModeCpu flipCampaign_injects hvalid rfl h₂ (by decide : 1 ≤ 32 / 8)
      (hvalid.dataAddresses_whole (Or.inl rfl) rfl)]
    rintro ⟨-, -, k, hk, -, -, -, -, hhi⟩
    obtain rfl : k = 0 := Nat.lt_one_iff.mp hk
    exact absurd hhi (by decide)

end Access

end FailStar
