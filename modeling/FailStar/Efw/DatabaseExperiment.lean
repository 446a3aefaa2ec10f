import FailStar.Campaign.DatabaseCampaign
import FailStar.ImportTrace.Importer
import FailStar.Sal.Simulator

/-! # The database-driven experiment

`DatabaseExperiment` takes pilots from the job server. For every bit of a pilot, or for every byte if bursts are
injected, it restores the simulator, forwards to the injection point, and injects a fault into a byte of memory
or of a register. A register byte is addressed by the data address that the importer made of a part of a
register.

* **`RegInfo.fromDataAddress`**, **`RegInfo.mask`** — the part of a register at a data address.
* **`DatabaseExperiment.injectFault`** — one injection; **`DatabaseExperiment.inject`** — the one for a value of
  the loop variable `bit_offset`.
* **`DatabaseExperiment.getLsbD_injectFault`** — which bits of the registers an injection changes.
* **`DatabaseExperiment.mem_injectedBits`** — the bits that are injected into for a pilot. -/

namespace FailStar

open ImportTrace

/-! ## Parts of registers -/

/-- `fromDataAddress(addr, width)`, with a width in bytes. -/
def ImportTrace.RegInfo.fromDataAddress (addr width : ℕ) : RegInfo where
  id := addr >>> 4
  width := width * 8
  offset := (addr &&& 0xf) * 8

/-- The mask that the constructor of `reginfo_t` computes. -/
def ImportTrace.RegInfo.mask (info : RegInfo) : BitVec 64 :=
  -- all ones, (1 << width) == 0!
  if 64 ≤ info.width then BitVec.allOnes 64 else fieldMask 64 info.width info.offset

variable {σ : Type*}

namespace Translator

/-- `getRegisterContent(cpu, reginfo)`. -/
def getRegisterContent (sim : Simulator σ) (s : σ) (reginfo : RegInfo) : BitVec 64 :=
  fieldGet (sim.getRegisterContent s reginfo.id) reginfo.mask reginfo.offset

/-- `setRegisterContent(cpu, reginfo, value)`. -/
def setRegisterContent (sim : Simulator σ) (s : σ) (reginfo : RegInfo) (value : BitVec 64) : σ :=
  sim.setRegisterContent s reginfo.id
    (fieldSet (sim.getRegisterContent s reginfo.id) reginfo.mask reginfo.offset value)

end Translator

/-! ## Injections -/

namespace Campaign.DatabaseExperiment

/-- What is toggled in a byte. -/
def fault (injectBurst : Bool) (bitpos : ℕ) : BitVec 32 := if injectBurst then 0xff#32 else 1#32 <<< bitpos

/-- **`injectFault`**: the original value, and the state behind the injection. -/
def injectFault (sim : Simulator σ) (s : σ) (dataAddress bitpos : ℕ)
    (injectBurst injectRegisters forceRegisters randomjump : Bool) : BitVec 32 × σ :=
  if randomjump then
    -- interpret data_address as new value for the IP, i.e. jump there
    let s' := sim.setRegisterContent s sim.ridPc (BitVec.ofNat 64 dataAddress)
    (BitVec.ofNat 32 (sim.getInstructionPointer s), sim.redecodeCurrentInstruction s')
  else if dataAddress < 128 <<< 4 ∧ injectRegisters = true then
    -- register FI
    let reginfo := RegInfo.fromDataAddress dataAddress 1
    let value := (Translator.getRegisterContent sim s reginfo).setWidth 32
    let injectedValue := value ^^^ fault injectBurst bitpos
    let s' := Translator.setRegisterContent sim s reginfo (injectedValue.setWidth 64)
    (value, if reginfo.id = sim.ridPc then sim.redecodeCurrentInstruction s' else s')
  else if forceRegisters = false then
    -- memory FI
    let value := (sim.getByte s dataAddress).setWidth 32
    let injectedValue := value ^^^ fault injectBurst bitpos
    (value, sim.setByte s dataAddress (injectedValue.setWidth 8))
  else (0, s)

/-- The injection for a value of `bit_offset`, in the state at the injection point. -/
def inject (sim : Simulator σ) (s : σ) (m : DatabaseCampaignMessage) (bitOffset : ℕ) : BitVec 32 × σ :=
  injectFault sim s (m.dataAddress + bitOffset / 8) (bitOffset % 8) m.injectBursts
    (decide (m.registerInjectionMode ≠ .off)) (decide (m.registerInjectionMode = .force))
    (decide (m.registerInjectionMode = .randomjump))

/-- **The bits that are injected into**: a register, and a bit of it that one of the injections changes. -/
def injectedBits (sim : Simulator σ) (s : σ) (m : DatabaseCampaignMessage) : Set (ℕ × ℕ) :=
  {x | ∃ bitOffset ∈ bitOffsets m,
    (sim.getRegisterContent (inject sim s m bitOffset).2 x.1).getLsbD x.2 ≠
      (sim.getRegisterContent s x.1).getLsbD x.2}

/-! ## What an injection changes -/

/-- The bits of a byte that are toggled. -/
def Toggles (injectBurst : Bool) (bitpos i : ℕ) : Prop := if injectBurst = true then i < 8 else i = bitpos

instance (injectBurst : Bool) (bitpos i : ℕ) : Decidable (Toggles injectBurst bitpos i) :=
  inferInstanceAs (Decidable (if injectBurst = true then i < 8 else i = bitpos))

theorem getLsbD_fault {bitpos : ℕ} (hbit : bitpos < 8) (injectBurst : Bool) {i : ℕ} (hi : i < 8) :
    (fault injectBurst bitpos).getLsbD i = decide (Toggles injectBurst bitpos i) := by
  cases injectBurst with
  | true =>
    have hburst : ∀ i < 8, (0xff#32).getLsbD i = true := by decide
    simp [fault, Toggles, hi, hburst i hi]
  | false =>
    have hflip : (1#32 <<< bitpos).getLsbD i = decide (i = bitpos) := by
      rw [BitVec.getLsbD_shiftLeft, BitVec.getLsbD_one, Bool.eq_iff_iff]
      simp only [Bool.and_eq_true, Bool.not_eq_true', decide_eq_true_eq, decide_eq_false_iff_not]
      omega
    simp [fault, Toggles, hflip]

section Register

variable (sim : Simulator σ) (s : σ) {dataAddress bitpos : ℕ} (injectBurst forceRegisters : Bool)

theorem id_fromDataAddress (dataAddress width : ℕ) :
    (RegInfo.fromDataAddress dataAddress width).id = dataAddress >>> 4 :=
  rfl

theorem offset_fromDataAddress (dataAddress width : ℕ) :
    (RegInfo.fromDataAddress dataAddress width).offset = (dataAddress &&& 0xf) * 8 := rfl

theorem mask_fromDataAddress (dataAddress : ℕ) :
    (RegInfo.fromDataAddress dataAddress 1).mask = fieldMask 64 8 ((dataAddress &&& 0xf) * 8) := rfl

/-- The value of a byte survives the detour over 32 bits. -/
theorem setWidth_injectedValue (dataAddress bitpos : ℕ) :
    (((Translator.getRegisterContent sim s (RegInfo.fromDataAddress dataAddress 1)).setWidth 32 ^^^
      fault injectBurst bitpos).setWidth 64 : BitVec 64) =
      Translator.getRegisterContent sim s (RegInfo.fromDataAddress dataAddress 1) ^^^
        (fault injectBurst bitpos).setWidth 64 := by
  apply BitVec.eq_of_getLsbD_eq
  intro j hj
  rw [BitVec.getLsbD_setWidth, BitVec.getLsbD_xor, BitVec.getLsbD_setWidth, BitVec.getLsbD_xor,
    BitVec.getLsbD_setWidth,
    Translator.getRegisterContent, mask_fromDataAddress, getLsbD_fieldGet, getLsbD_fieldMask,
      offset_fromDataAddress]
  by_cases hlow : j < 32
  · simp [hj, hlow]
  · -- the byte has no bits up there
    have hno : ¬j < 8 := by omega
    simp [hj, hlow, hno]

theorem getRegisterContent_ite_redecode (c : Prop) [Decidable c] (id : ℕ) :
    sim.getRegisterContent (if c then sim.redecodeCurrentInstruction s else s) id =
      sim.getRegisterContent s id := by
  split
  · exact sim.getRegisterContent_redecode s id
  · rfl

theorem getLsbD_injectedWord (hbit : bitpos < 8) (x : BitVec 64) (offset i : ℕ) :
    (fieldSet x (fieldMask 64 8 offset) offset
      (fieldGet x (fieldMask 64 8 offset) offset ^^^ (fault injectBurst bitpos).setWidth 64)).getLsbD i =
      (x.getLsbD i ^^ decide
        (i < 64 ∧ offset ≤ i ∧ i < offset + 8 ∧ Toggles injectBurst bitpos (i - offset))) := by
  rw [getLsbD_fieldSet_xor]
  congr 1
  by_cases hfield : offset ≤ i ∧ i < offset + 8
  · rw [BitVec.getLsbD_setWidth, getLsbD_fault hbit injectBurst (by omega), Bool.eq_iff_iff]
    simp only [Bool.and_eq_true, decide_eq_true_eq]
    constructor
    · rintro ⟨⟨-, -, htoggles⟩, hi⟩
      exact ⟨hi, hfield.1, hfield.2, htoggles⟩
    · rintro ⟨hi, -, -, htoggles⟩
      exact ⟨⟨hfield, by omega, htoggles⟩, hi⟩
  · have hnot : ¬(i < 64 ∧ offset ≤ i ∧ i < offset + 8 ∧ Toggles injectBurst bitpos (i - offset)) :=
      fun hall => hfield ⟨hall.2.1, hall.2.2.1⟩
    rw [decide_eq_false hfield, decide_eq_false hnot, Bool.false_and, Bool.false_and]

/-- **What an injection into a register changes**: the toggled bits of the addressed byte, as far as they are
written, and nothing else. -/
theorem getLsbD_injectFault (h : dataAddress < 128 <<< 4) (hbit : bitpos < 8) {mask : BitVec 64}
    (hmask : sim.written s (dataAddress >>> 4) = some mask) (id i : ℕ) :
    (sim.getRegisterContent (injectFault sim s dataAddress bitpos injectBurst true forceRegisters false).2
      id).getLsbD i =
      ((sim.getRegisterContent s id).getLsbD i ^^
        decide (id = dataAddress >>> 4 ∧ mask.getLsbD i = true ∧ i < 64 ∧ (dataAddress &&& 0xf) * 8 ≤ i ∧
          i < (dataAddress &&& 0xf) * 8 + 8 ∧ Toggles injectBurst bitpos (i - (dataAddress &&& 0xf) * 8))) := by
  rw [injectFault, if_neg Bool.false_ne_true, if_pos ⟨h, rfl⟩]
  dsimp only
  rw [getRegisterContent_ite_redecode, setWidth_injectedValue, Translator.setRegisterContent,
    sim.getRegisterContent_set _ _ mask (by rwa [id_fromDataAddress])]
  by_cases hid : id = dataAddress >>> 4
  · have hself : id = (RegInfo.fromDataAddress dataAddress 1).id := hid
    rw [if_pos hself, Translator.getRegisterContent, mask_fromDataAddress, ← hself, getLsbD_maskedWrite,
      offset_fromDataAddress, getLsbD_injectedWord injectBurst hbit]
    cases mask.getLsbD i with
    | false => simp
    | true => simp [hid]
  · have hother : ¬id = (RegInfo.fromDataAddress dataAddress 1).id := hid
    rw [if_neg hother, decide_eq_false fun hall => hid hall.1, Bool.xor_false]

end Register

/-! ## The bits of a pilot -/

theorem mem_bitOffsets {m : DatabaseCampaignMessage} {o : ℕ} :
    o ∈ bitOffsets m ↔ o < m.dataWidth * 8 % 2 ^ 32 ∧ injectionWidth m ∣ o := by
  have hwidth : injectionWidth m = 8 ∨ injectionWidth m = 1 := by
    rw [injectionWidth]
    split
    · exact Or.inl rfl
    · exact Or.inr rfl
  rw [bitOffsets, List.mem_range', width_mul_eight]
  rcases hwidth with hwidth | hwidth
  · rw [hwidth]
    constructor
    · rintro ⟨k, hk, rfl⟩
      exact ⟨by omega, by omega⟩
    · rintro ⟨hlt, k, rfl⟩
      exact ⟨k, by omega, by omega⟩
  · rw [hwidth]
    constructor
    · rintro ⟨k, hk, rfl⟩
      exact ⟨by omega, one_dvd _⟩
    · rintro ⟨hlt, -⟩
      exact ⟨o, by omega, by omega⟩

section Pilot

variable (sim : Simulator σ) (s : σ) {m : DatabaseCampaignMessage}
  (hmode : m.registerInjectionMode = .auto ∨ m.registerInjectionMode = .force)
  (haddress : m.dataAddress + m.dataWidth ≤ 128 <<< 4) {mask : ℕ → BitVec 64}
  (hmask :
    ∀ k < m.dataWidth, sim.written s ((m.dataAddress + k) >>> 4) = some (mask ((m.dataAddress + k) >>> 4)))

include hmode

theorem injectsRegisters_of_mode : decide (m.registerInjectionMode ≠ .off) = true := by
  rcases hmode with h | h
  · simp [h]
  · simp [h]

theorem not_randomjump_of_mode : decide (m.registerInjectionMode = .randomjump) = false := by
  rcases hmode with h | h
  · simp [h]
  · simp [h]

include haddress

/-- Every bit of a byte is toggled for some value of the loop variable. -/
theorem exists_bitOffset {k base i : ℕ} (hk : k < m.dataWidth) (hlo : base ≤ i) (hhi : i < base + 8) :
    ∃ o ∈ bitOffsets m, o / 8 = k ∧ Toggles m.injectBursts (o % 8) (i - base) := by
  cases hburst : m.injectBursts with
  | true =>
    refine ⟨8 * k, mem_bitOffsets.mpr ⟨by omega, ?_⟩, by omega, ?_⟩
    · rw [injectionWidth, if_pos (Or.inl hburst)]
      exact dvd_mul_right 8 k
    · rw [Toggles, if_pos rfl]
      omega
  | false =>
    have hstep : injectionWidth m = 1 := by
      rw [injectionWidth, if_neg (by rw [hburst]; simpa using not_randomjump_of_mode hmode)]
    refine ⟨8 * k + (i - base), mem_bitOffsets.mpr ⟨by omega, hstep ▸ one_dvd _⟩, by omega, ?_⟩
    rw [Toggles, if_neg Bool.false_ne_true]
    omega

include hmask

/-- The bits that the injection for one value of the loop variable changes. -/
theorem inject_changes_iff {o : ℕ} (ho : o < m.dataWidth * 8) (id i : ℕ) :
    (sim.getRegisterContent (inject sim s m o).2 id).getLsbD i ≠ (sim.getRegisterContent s id).getLsbD i ↔
      id = (m.dataAddress + o / 8) >>> 4 ∧ (mask ((m.dataAddress + o / 8) >>> 4)).getLsbD i = true ∧ i < 64 ∧
        ((m.dataAddress + o / 8) &&& 0xf) * 8 ≤ i ∧ i < ((m.dataAddress + o / 8) &&& 0xf) * 8 + 8 ∧
        Toggles m.injectBursts (o % 8) (i - ((m.dataAddress + o / 8) &&& 0xf) * 8) := by
  rw [inject, injectsRegisters_of_mode hmode, not_randomjump_of_mode hmode,
    getLsbD_injectFault sim s _ _ (by omega) (Nat.mod_lt _ (by decide)) (hmask (o / 8) (by omega))]
  generalize (sim.getRegisterContent s id).getLsbD i = b
  cases b with
  | false => simp
  | true => simp

variable (mask) in
/-- **The bits of a pilot** whose bytes are all register bytes: for every byte of the pilot, those of the eight
bits of the register byte at its address that are written. -/
theorem mem_injectedBits (id i : ℕ) :
    (id, i) ∈ injectedBits sim s m ↔
      (mask id).getLsbD i = true ∧ i < 64 ∧ ∃ k < m.dataWidth, id = (m.dataAddress + k) >>> 4 ∧
        ((m.dataAddress + k) &&& 0xf) * 8 ≤ i ∧ i < ((m.dataAddress + k) &&& 0xf) * 8 + 8 := by
  constructor
  · rintro ⟨o, ho, hne⟩
    have ho := (mem_bitOffsets.mp ho).1.trans_le (Nat.mod_le _ _)
    obtain ⟨hid, hwritten, hi, hlo, hhi, -⟩ := (inject_changes_iff sim s hmode haddress hmask ho id i).mp hne
    rw [← hid] at hwritten
    exact ⟨hwritten, hi, o / 8, by omega, hid, hlo, hhi⟩
  · rintro ⟨hwritten, hi, k, hk, hid, hlo, hhi⟩
    obtain ⟨o, ho, rfl, htoggles⟩ := exists_bitOffset hmode haddress hk hlo hhi
    have hlt := (mem_bitOffsets.mp ho).1.trans_le (Nat.mod_le _ _)
    rw [hid] at hwritten
    exact ⟨o, ho,
      (inject_changes_iff sim s hmode haddress hmask hlt id i).mpr ⟨hid, hwritten, hi, hlo, hhi, htoggles⟩⟩

end Pilot

end Campaign.DatabaseExperiment

end FailStar
