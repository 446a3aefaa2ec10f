import FailStar.ImportTrace.DelayedEntries

/-! # Branch outcomes

A jump history has one bit for each of the 16 branch outcomes before a memory event, and for each of the 16
outcomes after it. It is computed once these are known, from the outcomes seen so far, with `signed` numbers.

* **`outcomes`** — the outcomes of all conditional branches that are followed by an instruction.
* **`IsJumpHistory`** — the bits around a memory event.
* **`branchmask_isJumpHistory`**, **`branchmask_eq_none`**, **`branchmask_eq_zero`** — the bits that are
  computed, for fewer than `2 ^ 31` outcomes, about as many, and more.
* **`CompleteAt`**, **`isJumpHistory_branchmask_iff`** — when they are those of the whole trace. -/

namespace FailStar.ImportTrace

open AdvancedMemoryImporter

variable {cfg : Config} {instrMap : InstrMap} {events : List TraceEvent} {ev : TraceEvent} {st st' : Importer}

/-! ## Branch outcomes -/

/-- The fall-through address of an executed instruction. -/
def fallThrough (cfg : Config) (opcode : Instr) (ev : TraceEvent) : ℕ := cfg.address (ev.ip + opcode.length)

/-- The address behind an instruction, as the disassembler knows it: `opcode.address + opcode.length`. -/
def disassembledBehind (cfg : Config) (opcode : Instr) (_ : TraceEvent) : ℕ :=
  cfg.address ((opcode.address + opcode.length) % 2 ^ 32)

section Outcomes

variable (instrMap : InstrMap) (behind : Instr → TraceEvent → ℕ)

/-- The outcome of an instruction that is followed by `next`, if it is a conditional branch. -/
def outcome (ev next : TraceEvent) : List Bool :=
  match instrMap.find ev with
  | none => []
  | some opcode => if opcode.conditionalBranch then [decide (next.ip ≠ behind opcode ev)] else []

/-- The outcomes of a sequence of instructions. -/
def instructionOutcomes : List TraceEvent → List Bool
  | [] => []
  | [_] => []
  | ev :: next :: rest => outcome instrMap behind ev next ++ instructionOutcomes (next :: rest)

/-- **The outcomes of all conditional branches** that are followed by an instruction: taken if and only if the
next instruction is not the one at the address behind the branch. -/
def outcomes (events : List TraceEvent) : List Bool := instructionOutcomes instrMap behind (instructions events)

theorem instructionOutcomes_concat (l : List TraceEvent) (next : TraceEvent) :
    instructionOutcomes instrMap behind (l ++ [next]) =
      instructionOutcomes instrMap behind l ++
        (l.getLast?.map fun ev => outcome instrMap behind ev next).getD [] := by
  induction l with
  | nil => rfl
  | cons ev l ih =>
    cases l with
    | nil => simp [instructionOutcomes]
    | cons ev' l =>
      rw [List.cons_append, List.cons_append, instructionOutcomes, ← List.cons_append, ih, instructionOutcomes,
        List.append_assoc, List.getLast?_cons_cons]

theorem outcomes_mem (hmem : ev.hasMemaddr = true) :
    outcomes instrMap behind (events ++ [ev]) = outcomes instrMap behind events := by
  rw [outcomes, instructions_mem hmem, outcomes]

theorem outcomes_instr (hmem : ¬ ev.hasMemaddr = true) :
    outcomes instrMap behind (events ++ [ev]) =
      outcomes instrMap behind events ++
        ((instructions events).getLast?.map fun last => outcome instrMap behind last ev).getD [] := by
  rw [outcomes, instructions_instr hmem, instructionOutcomes_concat, outcomes]

theorem length_outcome (ev next : TraceEvent) :
    (outcome instrMap behind ev next).length = if isBranch instrMap ev then 1 else 0 := by
  rw [outcome, isBranch]
  cases instrMap.find ev with
  | none => rfl
  | some opcode => cases hbranch : opcode.conditionalBranch <;> simp [hbranch]

/-- Whatever the addresses, there is one outcome for each branch. -/
theorem length_outcomes (events : List TraceEvent) :
    (outcomes instrMap behind events).length = knownBranches instrMap events := by
  induction events using List.reverseRecOn with
  | nil => rfl
  | append_singleton events ev ih =>
    by_cases hmem : ev.hasMemaddr = true
    · rw [outcomes_mem instrMap behind hmem, knownBranches_mem hmem, ih]
    · rw [outcomes_instr instrMap behind hmem, knownBranches_instr hmem, List.length_append, ih]
      cases (instructions events).getLast? with
      | none => rfl
      | some last =>
        rw [Option.map_some, Option.getD_some, length_outcome]
        rfl

theorem outcomes_front (events rest : List TraceEvent) :
    outcomes instrMap behind events <+: outcomes instrMap behind (events ++ rest) := by
  induction rest generalizing events with
  | nil => rw [List.append_nil]
  | cons ev rest ih =>
    have hone : outcomes instrMap behind events <+: outcomes instrMap behind (events ++ [ev]) := by
      by_cases hmem : ev.hasMemaddr = true
      · rw [outcomes_mem instrMap behind hmem]
      · rw [outcomes_instr instrMap behind hmem]
        exact List.prefix_append _ _
    rw [List.append_cons]
    exact hone.trans (ih _)

end Outcomes

theorem knownBranches_le_count (instrMap : InstrMap) (events : List TraceEvent) :
    knownBranches instrMap events ≤ instructionCount events - 1 := by
  have hlen : instructionCount events = (instructions events).length := List.countP_eq_length_filter
  have hle : knownBranches instrMap events ≤ (instructions events).dropLast.length := List.countP_le_length
  rwa [List.length_dropLast, ← hlen] at hle

/-! ## The bits of a jump history -/

/-- The outcome at an index that may lie outside. -/
def outcomeAt (taken : List Bool) (i : ℤ) : Bool := if 0 ≤ i then taken[i.toNat]?.getD false else false

/-- **The jump history of a memory event behind `before` outcomes**: one bit for each outcome around it. -/
def IsJumpHistory (taken : List Bool) (before mask : ℕ) : Prop :=
  ∀ pos : ℤ, -16 ≤ pos → pos ≤ 15 → mask.testBit (15 - pos).toNat = outcomeAt taken (before + pos)

theorem testBit_foldl_or (bit : ℕ → Bool) (place : ℕ → ℕ) (n j : ℕ) :
    ((List.range n).foldl (fun mask k => mask ||| (bit k).toNat <<< place k) 0).testBit j = true ↔
      ∃ k < n, place k = j ∧ bit k = true := by
  induction n with
  | zero => simp
  | succ n ih =>
    have hone : ((bit n).toNat <<< place n).testBit j = true ↔ place n = j ∧ bit n = true := by
      cases hbit : bit n with
      | false => simp
      | true => simp [Nat.one_shiftLeft, Nat.testBit_two_pow]
    rw [List.range_succ, List.foldl_append, List.foldl_cons, List.foldl_nil, Nat.testBit_or,
      Bool.or_eq_true, ih, hone]
    constructor
    · rintro (⟨k, hk, hplace⟩ | hlast)
      · exact ⟨k, Nat.lt_succ_of_lt hk, hplace⟩
      · exact ⟨n, Nat.lt_succ_self n, hlast⟩
    · rintro ⟨k, hk, hplace⟩
      rcases Nat.lt_succ_iff_lt_or_eq.mp hk with hk | rfl
      · exact Or.inl ⟨k, hk, hplace⟩
      · exact Or.inr hplace

section Mask

variable {taken : List Bool} {before : ℕ}

theorem signed_of_lt {n : ℕ} (h : n < 2 ^ 31) : signed n = n := by
  rw [signed, Int.bmod_def]
  omega

theorem signed_of_ge {n : ℕ} (hlo : 2 ^ 31 ≤ n) (hhi : n < 2 ^ 32) : signed n = n - 2 ^ 32 := by
  rw [signed, Int.bmod_def]
  omega

theorem signedResult_of_mem {n : ℤ} (hlo : -(2 ^ 31) ≤ n) (hhi : n < 2 ^ 31) : signedResult n = some n :=
  if_pos ⟨hlo, hhi⟩

/-- The loop over the window, if its ends are defined. -/
theorem branchmask_eq {first last : ℤ} (hfirst : signedResult (-signed before) = some first)
    (hlast : signedResult (signed taken.length - signed before) = some last) :
    let pos := max (-(branchWindowSize : ℤ)) first
    branchmask taken before =
      some ((List.range (min (branchWindowSize : ℤ) last - pos).toNat).foldl
        (fun mask (k : ℕ) => mask ||| (taken[((before + (pos + k)) % 2 ^ 32).toNat]?.getD false).toNat <<<
          (16 - (pos + k) - 1).toNat) 0) := by
  rw [branchmask, hfirst, hlast]
  rfl

/-- **The mask is the jump history**, in the outcomes known so far. -/
theorem branchmask_isJumpHistory (hlt : taken.length < 2 ^ 31) (hle : before ≤ taken.length)
    (hnear : taken.length ≤ before + 16) :
    ∃ mask ∈ branchmask taken before, IsJumpHistory taken before mask := by
  have hfirst : signedResult (-signed before) = some (-(before : ℤ)) := by
    rw [signed_of_lt (by omega), signedResult_of_mem (by omega) (by omega)]
  have hlast : signedResult (signed taken.length - signed before) = some ((taken.length : ℤ) - before) := by
    rw [signed_of_lt hlt, signed_of_lt (by omega), signedResult_of_mem (by omega) (by omega)]
  refine ⟨_, branchmask_eq hfirst hlast, fun pos hlo hhi => ?_⟩
  rw [Bool.eq_iff_iff, branchWindowSize, testBit_foldl_or, outcomeAt]
  generalize hstart : max (-((16 : ℕ) : ℤ)) (-(before : ℤ)) = start
  constructor
  · rintro ⟨k, hk, hplace, hbit⟩
    obtain rfl : start + k = pos := by omega
    rw [Int.emod_eq_of_lt (by omega) (by omega)] at hbit
    rwa [if_pos (by omega)]
  · intro hbit
    split at hbit
    · have hlt : (before + pos).toNat < taken.length := by
        by_contra hge
        rw [List.getElem?_eq_none (Nat.le_of_not_lt hge)] at hbit
        cases hbit
      have hindex : ((before : ℤ) + (start + ((pos - start).toNat : ℕ))) % 2 ^ 32 = before + pos := by omega
      exact ⟨(pos - start).toNat, by omega, by omega, hindex ▸ hbit⟩
    · cases hbit

/-- **Behind more than `2 ^ 31` outcomes, the window is empty.** -/
theorem branchmask_eq_zero (hbefore : 2 ^ 31 < before) (hlt : taken.length < 2 ^ 32)
    (hle : before ≤ taken.length) (hnear : taken.length ≤ before + 16) : branchmask taken before = some 0 := by
  have hfirst : signedResult (-signed before) = some (2 ^ 32 - (before : ℤ)) := by
    rw [signed_of_ge hbefore.le (by omega), signedResult_of_mem (by omega) (by omega), neg_sub]
  have hlast : signedResult (signed taken.length - signed before) = some ((taken.length : ℤ) - before) := by
    rw [signed_of_ge (by omega) hlt, signed_of_ge hbefore.le (by omega),
      signedResult_of_mem (by omega) (by omega), sub_sub_sub_cancel_right]
  have hempty : (min (branchWindowSize : ℤ) ((taken.length : ℤ) - before) -
      max (-(branchWindowSize : ℤ)) (2 ^ 32 - before)).toNat = 0 := by omega
  rw [branchmask_eq hfirst hlast, hempty]
  rfl

/-- **In between, an operation overflows**: `2 ^ 31` outcomes cannot be negated, and fewer cannot be subtracted
from `2 ^ 31` or more. -/
theorem branchmask_eq_none (hbefore : before ≤ 2 ^ 31) (hlong : 2 ^ 31 ≤ taken.length)
    (hlt : taken.length < 2 ^ 32) (hnear : taken.length ≤ before + 16) : branchmask taken before = none := by
  rcases hbefore.lt_or_eq with hless | rfl
  · have hlast : signedResult (signed taken.length - signed before) = none := by
      rw [signed_of_ge hlong hlt, signed_of_lt hless]
      exact if_neg (by omega)
    rw [branchmask, hlast]
    cases signedResult (-signed before) with
    | none => rfl
    | some first => rfl
  · have hfirst : signedResult (-signed (2 ^ 31 : ℕ)) = none := by
      rw [signed_of_ge le_rfl (by decide)]
      exact if_neg (by omega)
    rw [branchmask, hfirst]
    rfl

end Mask

section Window

variable {judged real : List Bool} {before mask : ℕ}

theorem outcomeAt_natCast (taken : List Bool) (i : ℕ) : outcomeAt taken (i : ℤ) = taken[i]?.getD false := by
  rw [outcomeAt, if_pos (Int.natCast_nonneg i), Int.toNat_natCast]

theorem forall_window_iff (before : ℕ) (P : ℤ → Prop) (hneg : ∀ i < 0, P i) :
    (∀ pos : ℤ, -16 ≤ pos → pos ≤ 15 → P (before + pos)) ↔ ∀ i : ℕ, before ≤ i + 16 → i < before + 16 → P i := by
  constructor
  · intro h i hlo hhi
    have hpos := h (i - before) (by omega) (by omega)
    rwa [show (before : ℤ) + (i - before) = i by omega] at hpos
  · intro h pos hlo hhi
    by_cases hlt : (before : ℤ) + pos < 0
    · exact hneg _ hlt
    · have hindex := h (before + pos).toNat (by omega) (by omega)
      rwa [Int.toNat_of_nonneg (by omega)] at hindex

/-- **The jump history is that of other outcomes** if and only if they agree in the window. -/
theorem IsJumpHistory.iff_agree (h : IsJumpHistory judged before mask) (hlen : judged.length = real.length) :
    IsJumpHistory real before mask ↔ ∀ i, before ≤ i + 16 → i < before + 16 → judged[i]? = real[i]? := by
  have hsame : IsJumpHistory real before mask ↔
      ∀ pos : ℤ, -16 ≤ pos → pos ≤ 15 → outcomeAt judged (before + pos) = outcomeAt real (before + pos) :=
    forall_congr' fun pos => imp_congr_right fun hlo => imp_congr_right fun hhi => by rw [h pos hlo hhi]
  rw [hsame, forall_window_iff before fun i => outcomeAt judged i = outcomeAt real i]
  · refine forall_congr' fun i => imp_congr_right fun _ => imp_congr_right fun _ => ?_
    rw [outcomeAt_natCast, outcomeAt_natCast]
    rcases Nat.lt_or_ge i judged.length with hi | hi
    · rw [List.getElem?_eq_getElem hi, List.getElem?_eq_getElem (hlen ▸ hi), Option.getD_some, Option.getD_some,
        Option.some.injEq]
    · rw [List.getElem?_eq_none hi, List.getElem?_eq_none (hlen ▸ hi)]
      exact iff_of_true rfl rfl
  · intro i hi
    rw [outcomeAt, if_neg (by omega), outcomeAt, if_neg (by omega)]

theorem isJumpHistory_zero_iff : IsJumpHistory real before 0 ↔
    ∀ i, before ≤ i + 16 → i < before + 16 → real[i]? ≠ some true := by
  simp only [IsJumpHistory, Nat.zero_testBit]
  rw [forall_window_iff before fun i => false = outcomeAt real i]
  · refine forall_congr' fun i => imp_congr_right fun _ => imp_congr_right fun _ => ?_
    rw [outcomeAt_natCast]
    cases real[i]? <;> simp
  · intro i hi
    rw [outcomeAt, if_neg (by omega)]

/-- Later outcomes are outside of a window that is known. -/
theorem IsJumpHistory.extend (h : IsJumpHistory judged before mask) (hfront : judged <+: real)
    (hknown : judged = real ∨ before + 16 ≤ judged.length) : IsJumpHistory real before mask := by
  rcases hknown with rfl | hknown
  · exact h
  · obtain ⟨rest, rfl⟩ := hfront
    intro pos hlo hhi
    rw [h pos hlo hhi, outcomeAt, outcomeAt]
    split
    · rw [List.getElem?_append_left (by omega)]
    · rfl

/-- **The condition for a complete jump history**: as long as there are fewer than `2 ^ 31` outcomes, up to the
end of the window or in the whole trace, that the outcomes around the event are judged right; behind more than
`2 ^ 31` outcomes, that there is nothing to be recorded. -/
def CompleteAt (judged real : List Bool) (before : ℕ) : Prop :=
  if before + 16 < 2 ^ 31 ∨ real.length < 2 ^ 31 then ∀ i, before ≤ i + 16 → i < before + 16 →
    judged[i]? = real[i]?
  else 2 ^ 31 < before ∧ ∀ i, before ≤ i + 16 → i < before + 16 → real[i]? ≠ some true

/-- **The mask of a released entry** is the jump history in all outcomes of the trace if and only if the
condition holds. -/
theorem isJumpHistory_branchmask_iff {taken : List Bool} (hlt : taken.length < 2 ^ 32)
    (hle : before ≤ taken.length)
    (hnear : taken.length ≤ before + 16) (hfront : taken <+: judged) (hlen : judged.length = real.length)
    (hknown : taken = judged ∨ (before + branchWindowSize) % 2 ^ 32 ≤ taken.length) :
    (∃ mask ∈ branchmask taken before, IsJumpHistory real before mask) ↔ CompleteAt judged real before := by
  have hfew : taken.length < 2 ^ 31 ↔ before + 16 < 2 ^ 31 ∨ real.length < 2 ^ 31 := by
    have hshort := hfront.length_le
    have hend : taken.length = judged.length ∨ (before + 16) % 2 ^ 32 ≤ taken.length :=
      hknown.imp_left (congrArg List.length)
    omega
  rw [CompleteAt]
  split
  · rename_i hfewer
    obtain ⟨mask, hmask, hhistory⟩ := branchmask_isJumpHistory (hfew.mpr hfewer) hle hnear
    have hwhole : IsJumpHistory judged before mask := hhistory.extend hfront (hknown.imp_right fun hknown => by
      rwa [branchWindowSize, Nat.mod_eq_of_lt (by omega)] at hknown)
    rw [← hwhole.iff_agree hlen, Option.mem_def.mp hmask]
    simp
  · rename_i hmany
    rcases Nat.lt_or_ge (2 ^ 31) before with hbefore | hbefore
    · rw [branchmask_eq_zero hbefore hlt hle hnear, and_iff_right hbefore, ← isJumpHistory_zero_iff]
      simp
    · rw [branchmask_eq_none hbefore (Nat.le_of_not_lt (mt hfew.mp hmany)) hlt hnear]
      exact iff_of_false (by simp) fun h => Nat.not_lt.mpr hbefore h.1

end Window

end FailStar.ImportTrace
