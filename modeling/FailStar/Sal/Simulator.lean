import FailStar.Foundations.BitField

/-! # Simulators

What an experiment sees of the simulated machine: registers of 64 bits, and a memory of bytes. A write to a
register may not reach all of its bits. Bochs keeps the reserved bits of the flags as they are, and the
virtual-8086 flag in long mode.

* **`Simulator`** — the interface, with what is assumed of a write.
* **`BochsCPU`** — the registers of a 64-bit Bochs that are traced; **`bochs`** — it meets the interface. -/

namespace FailStar

/-- **The simulator**: its registers and its memory. -/
structure Simulator (σ : Type*) where
  getRegisterContent : σ → ℕ → BitVec 64
  setRegisterContent : σ → ℕ → BitVec 64 → σ
  getInstructionPointer : σ → ℕ
  getByte : σ → ℕ → BitVec 8
  setByte : σ → ℕ → BitVec 8 → σ
  redecodeCurrentInstruction : σ → σ
  /-- `RID_PC`. -/
  ridPc : ℕ
  /-- The bits of a register that a write stores, if it changes nothing else. -/
  written : σ → ℕ → Option (BitVec 64)
  getRegisterContent_set : ∀ s id mask, written s id = some mask → ∀ value id',
    getRegisterContent (setRegisterContent s id value) id' =
      if id' = id then maskedWrite (getRegisterContent s id) mask value else getRegisterContent s id'
  getRegisterContent_redecode : ∀ s id, getRegisterContent (redecodeCurrentInstruction s) id =
    getRegisterContent s id

/-! ## Bochs -/

/-- `EFlagsVMMask`. -/
def eflagsVmMask : BitVec 32 := 1#32 <<< 17

/-- **The state of a 64-bit Bochs** that can be traced: the general-purpose registers, the program counter and
the flags. -/
structure BochsCPU where
  /-- `gen_reg`. -/
  genReg : ℕ → BitVec 64
  /-- The flags, all of which are known behind `force_flags`. -/
  eflags : BitVec 32
  longMode : Bool
  memory : ℕ → BitVec 8
  /-- VM is not set in long mode. -/
  vm_eq_false : longMode = true → eflags.getLsbD 17 = false

namespace BochsCPU

/-- `RID_PC`, behind the sixteen general-purpose registers. -/
def ridPc : ℕ := 16

/-- `RID_FLAGS`. -/
def ridFlags : ℕ := 17

/-- The non-reserved bits: ID, VIP, VIF, AC, VM, RF, NT, IOPL, OF, DF, IF, TF, SF, ZF, AF, PF, CF. -/
def supportMask : BitVec 32 := 0x00037fd5#32 ||| (1#32 <<< 21 ||| 1#32 <<< 18) ||| (1#32 <<< 20 ||| 1#32 <<< 19)

/-- `setEFlags(val)`: VM cannot be set from long mode. -/
def setEFlags (cpu : BochsCPU) (val : BitVec 32) : BochsCPU where
  genReg := cpu.genReg
  eflags := if cpu.longMode then val &&& ~~~eflagsVmMask else val
  longMode := cpu.longMode
  memory := cpu.memory
  vm_eq_false h := by
    have hmask : (~~~eflagsVmMask).getLsbD 17 = false := by decide
    rw [if_pos h, BitVec.getLsbD_and, hmask, Bool.and_false]

/-- `writeEFlags(flags, changeMask)`, which screens out changing of any unsupported bits. -/
def writeEFlags (cpu : BochsCPU) (flags changeMask : BitVec 32) : BochsCPU :=
  cpu.setEFlags (maskedWrite cpu.eflags (changeMask &&& supportMask) flags)

/-- The place of a register in `gen_reg`: RIP is behind a temporary register. -/
def genIndex (id : ℕ) : ℕ := if id = ridPc then 17 else id

/-- **`getRegisterContent(reg)`.** -/
def getRegisterContent (cpu : BochsCPU) (id : ℕ) : BitVec 64 :=
  if id = ridFlags then cpu.eflags.setWidth 64 else cpu.genReg (genIndex id)

/-- **`setRegisterContent(reg, value)`.** -/
def setRegisterContent (cpu : BochsCPU) (id : ℕ) (value : BitVec 64) : BochsCPU :=
  if id = ridFlags then
    -- just assign the lower 32 bits
    let regdata := cpu.getRegisterContent id
    cpu.writeEFlags (((regdata &&& 0xFFFFFFFF00000000#64) ||| (value &&& 0xFFFFFFFF#64)).setWidth 32)
      0xffffffff#32
  else { cpu with genReg := Function.update cpu.genReg (genIndex id) value }

/-- The flags that a write stores. -/
def writtenFlags (cpu : BochsCPU) : BitVec 32 :=
  if cpu.longMode then supportMask &&& ~~~eflagsVmMask else supportMask

/-- The bits that a write stores. Segment and control registers, which are not traced, have further effects. -/
def written (cpu : BochsCPU) (id : ℕ) : Option (BitVec 64) :=
  if id = ridFlags then some (cpu.writtenFlags.setWidth 64)
  else if id ≤ ridPc then some (BitVec.allOnes 64)
  else none

theorem getLsbD_clearVm (longMode : Bool) (val : BitVec 32) {i : ℕ} (hi : i < 32) :
    (if longMode then val &&& ~~~eflagsVmMask else val).getLsbD i =
      (val.getLsbD i && !(longMode && decide (i = 17))) := by
  have hvm : ∀ i < 32, (~~~eflagsVmMask).getLsbD i = !decide (i = 17) := by decide
  cases longMode with
  | false => simp
  | true => rw [if_pos rfl, BitVec.getLsbD_and, hvm i hi, Bool.true_and]

/-- Only the lower 32 bits are assigned. -/
theorem setRegisterContent_flags (cpu : BochsCPU) (value : BitVec 64) :
    cpu.setRegisterContent ridFlags value = cpu.writeEFlags (value.setWidth 32) 0xffffffff#32 := by
  have hlow : ∀ regdata : BitVec 64,
      ((regdata &&& 0xFFFFFFFF00000000#64) ||| (value &&& 0xFFFFFFFF#64)).setWidth 32 = value.setWidth 32 := by
    intro regdata
    have hzeros : ∀ i < 32, (0xFFFFFFFF00000000#64).getLsbD i = false := by decide
    have hones : ∀ i < 32, (0xFFFFFFFF#64).getLsbD i = true := by decide
    apply BitVec.eq_of_getLsbD_eq
    intro i hi
    rw [BitVec.getLsbD_setWidth, BitVec.getLsbD_or, BitVec.getLsbD_and, BitVec.getLsbD_and, hzeros i hi,
      hones i hi, BitVec.getLsbD_setWidth, Bool.and_false, Bool.false_or, Bool.and_true]
  rw [setRegisterContent, if_pos rfl]
  exact congrArg (cpu.writeEFlags · _) (hlow _)

/-- **A write to the flags.** -/
theorem getLsbD_set_flags (cpu : BochsCPU) (value : BitVec 64) (i : ℕ) :
    ((cpu.setRegisterContent ridFlags value).getRegisterContent ridFlags).getLsbD i =
      (maskedWrite (cpu.getRegisterContent ridFlags) (cpu.writtenFlags.setWidth 64) value).getLsbD i := by
  rw [getLsbD_maskedWrite, setRegisterContent_flags, getRegisterContent, if_pos rfl, getRegisterContent,
    if_pos rfl, BitVec.getLsbD_setWidth, BitVec.getLsbD_setWidth, BitVec.getLsbD_setWidth]
  by_cases hi : i < 32
  · have hall : (0xffffffff#32 &&& supportMask) = supportMask := by decide
    have hnew : (cpu.writeEFlags (value.setWidth 32) 0xffffffff#32).eflags.getLsbD i =
        ((maskedWrite cpu.eflags supportMask (value.setWidth 32)).getLsbD i &&
          !(cpu.longMode && decide (i = 17))) := by
      rw [writeEFlags, hall]
      exact getLsbD_clearVm cpu.longMode _ hi
    rw [hnew, writtenFlags, getLsbD_clearVm cpu.longMode _ hi, getLsbD_maskedWrite, BitVec.getLsbD_setWidth]
    have hi' : i < 64 := by omega
    by_cases hvm : cpu.longMode = true ∧ i = 17
    · -- VM is not set in long mode, neither before nor behind the write
      have hclear := cpu.vm_eq_false hvm.1
      rw [hvm.1, hvm.2, hclear]
      simp
    · have hnot : (cpu.longMode && decide (i = 17)) = false := by simpa using hvm
      simp [hnot, hi, hi']
  · simp [BitVec.getLsbD_of_ge _ _ (Nat.not_lt.mp hi)]

theorem genIndex_inj {id id' : ℕ} (h : id ≤ ridPc) (h' : id' ≠ ridFlags) :
    genIndex id' = genIndex id ↔ id' = id := by
  unfold genIndex ridPc ridFlags at *
  split <;> split <;> omega

/-- **What a write changes.** -/
theorem getRegisterContent_set (cpu : BochsCPU) (id : ℕ) (mask : BitVec 64) (h : cpu.written id = some mask)
    (value : BitVec 64) (id' : ℕ) :
    (cpu.setRegisterContent id value).getRegisterContent id' =
      if id' = id then maskedWrite (cpu.getRegisterContent id) mask value else cpu.getRegisterContent id' := by
  rw [written] at h
  split at h
  case isTrue hflags =>
    obtain rfl := Option.some.inj h
    subst hflags
    split
    case isTrue hsame =>
      rw [hsame]
      exact BitVec.eq_of_getLsbD_eq fun i _ => cpu.getLsbD_set_flags value i
    case isFalse hother =>
      rw [setRegisterContent_flags, getRegisterContent, if_neg hother, getRegisterContent, if_neg hother]
      rfl
  case isFalse hflags =>
    split at h
    case isTrue hle =>
      obtain rfl := Option.some.inj h
      rw [setRegisterContent, if_neg hflags, maskedWrite_allOnes, getRegisterContent]
      by_cases hflags' : id' = ridFlags
      · rw [if_pos hflags', if_neg (fun h => hflags (h.symm.trans hflags')), getRegisterContent, if_pos hflags']
      · rw [if_neg hflags', getRegisterContent, if_neg hflags']
        change Function.update _ _ _ _ = _
        rw [Function.update_apply]
        simp only [genIndex_inj hle hflags']
    case isFalse => cases h

end BochsCPU

/-- **Bochs as a simulator.** -/
def bochs : Simulator BochsCPU where
  getRegisterContent := BochsCPU.getRegisterContent
  setRegisterContent := BochsCPU.setRegisterContent
  getInstructionPointer cpu := (cpu.getRegisterContent BochsCPU.ridPc).toNat
  getByte cpu := cpu.memory
  setByte cpu address value := { cpu with memory := Function.update cpu.memory address value }
  redecodeCurrentInstruction := id
  ridPc := BochsCPU.ridPc
  written := BochsCPU.written
  getRegisterContent_set := BochsCPU.getRegisterContent_set
  getRegisterContent_redecode _ _ := rfl

end FailStar
