import FailStar.Foundations.FaultSpace
import FailStar.ImportTrace.EquivalenceClasses

/-! # What a row of the trace table stands for

The importer makes rows of a trace, without knowing the machine. For the machine, a row stands for faults: the
byte `data_address` (of the memory, of a register or of an instruction) is changed in front of one of the
instructions from `instr1` to `instr2`. All of them lead to the same run.

* **`def_use_pruning_sound`** — what the import of a trace says of the faults. -/

namespace FailStar.ImportTrace

variable {σ : Type*} {M : Machine σ ℕ (BitVec 8) AccessType} {cfg : Config} {kind : Kind}
    {st : σ × (ℕ → BitVec 8)}
  {events : List TraceEvent}

/-- **The import is a sound partition of the fault space**, if the trace reports the accesses of the machine that
the importer looks at. Every fault in an accessed or listed byte in front of an instruction belongs to one row.
It leads to the run that the fault in front of `instr2` leads to; if the row ends with an overwriting access,
that is the run without a fault; and if it ends with the trace, the fault is still there at its end and has had
no effect. -/
theorem def_use_pruning_sound (hcfg : Inserts cfg) (hkind : kind.Splits)
    (hevents : ∀ ev ∈ events, Importable cfg kind ev) (hcount : instructionCount events < 2 ^ 32)
    (hlisted : ∀ a ∈ kind.unusedAddresses cfg, a < 2 ^ 32)
    (hreports : kept cfg kind (accesses cfg kind 0 0 events) =
      kept cfg kind (M.accesses st (instructionCount events))) :
    ∃ imp, copyToDatabase cfg kind events = some imp ∧
      ∀ a, (kind.keeps cfg a = true ∧ ∃ x ∈ M.accesses st (instructionCount events), x.address = a) ∨
          a ∈ kind.unusedAddresses cfg →
        ∀ t < instructionCount events, ∃ row, rowsAt imp a t = [row] ∧
          ∀ (f : BitVec 8 → BitVec 8), ∀ n ≥ instructionCount events,
            (row.isFake = false → M.inject st f a t n = M.inject st f a row.instr2 n ∧
              (M.overwrites row.accesstype → M.inject st f a t n = M.run n st)) ∧
            (row.isFake = true → M.inject st f a t n = M.inject st f a (instructionCount events) n ∧
              M.inject st f a t (instructionCount events) =
                Machine.disturb f a (M.run (instructionCount events) st)) := by
  obtain ⟨imp, as, hrun, hlast, hnodup, has, hspans⟩ := copyToDatabase_spans hcfg hkind hevents hcount hlisted
  refine ⟨imp, hrun, fun a ha t ht => ?_⟩
  have hkeeps : kind.keeps cfg a = true := ha.elim And.left keeps_of_mem_unusedAddresses
  have hkept : ∀ x ∈ M.accesses st (instructionCount events), x.address = a → kind.keeps cfg x.address = true :=
    fun x _ hxa => hxa ▸ hkeeps
  have hsorted := (accesses_sorted cfg kind events (le_refl 0)).filter fun x => kind.keeps cfg x.address
  have hbound : ∀ x ∈ kept cfg kind (accesses cfg kind 0 0 events), x.instr ≤ imp.lastInstr := by
    intro x hx
    have := instr_of_mem_accesses (le_refl 0) (List.mem_filter.mp hx).1
    omega
  have hmem : a ∈ as := by
    refine (has a).mpr (ha.imp_left ?_)
    rintro ⟨-, x, hx, hxa⟩
    exact ⟨x, hreports ▸ List.mem_filter.mpr ⟨hx, hkept x hx hxa⟩, hxa⟩
  obtain ⟨s, hs, hreal, hfake⟩ :=
    DefUse.classified (t := t) cfg.faultspaceRightmargin hsorted hbound hnodup hmem (by omega)
  have hrows : (rowsAt imp a t).map TraceRow.span = [s] := by
    rw [map_span_rowsAt, hspans]
    exact hs
  obtain ⟨row, hrow, rfl⟩ := List.map_eq_singleton_iff.mp hrows
  have hxs : (accesses cfg kind 0 0 events).filter (fun x => kind.keeps cfg x.address) = _ := hreports
  rw [hxs] at hreal hfake
  refine ⟨row, hrow, fun f n hn => ⟨fun hnot => ?_, fun hfakeRow => ?_⟩⟩
  · -- the row ends with the first access to the byte
    have hfirst := (hreal (by simp [TraceRow.span, hnot])).of_filter hkept
    obtain ⟨hlt, hquiet, htype⟩ := Machine.quiet_of_firstAccess hfirst
    exact ⟨Machine.inject_eq_of_quiet hquiet hfirst.le (hlt.le.trans hn),
      Machine.inject_eq_run_of_overwritten hquiet hfirst.le (hlt.trans_le hn) htype⟩
  · -- there is no such access
    have hquiet : M.Quiet st a t (instructionCount events) := Machine.quiet_of_forall_lt fun x hx hxa =>
      hfake (by simp [TraceRow.span, hfakeRow]) x (List.mem_filter.mpr ⟨hx, hkept x hx hxa⟩) hxa
    exact ⟨Machine.inject_eq_of_quiet hquiet ht.le hn, hquiet.run_disturb ht.le⟩

/-- A machine that clears a word with its second instruction, and increments one of its bytes with the fourth. -/
def storeMachine : Machine ℕ ℕ (BitVec 8) AccessType where
  exec s := (s.1 + 1, match s.1 with
    | 1 => fun a => if 100 ≤ a ∧ a < 104 then 0 else s.2 a
    | 3 => Function.update s.2 102 (s.2 102 + 1)
    | _ => s.2)
  touches s := match s.1 with
    | 1 => [(100, .write), (101, .write), (102, .write), (103, .write)]
    | 3 => [(102, .read), (102, .write)]
    | _ => []
  overwrites ty := ty = .write
  exec_update_of_untouched := by
    rintro (_ | _ | _ | _ | pc) m a v h
    · rfl
    · refine Prod.ext rfl (funext fun x => ?_)
      by_cases hx : x = a <;> simp_all [Function.update_apply]
      omega
    · rfl
    · exact Prod.ext rfl (by simp_all [Function.update_comm, Ne.symm])
    · rfl
  exec_update_of_overwritten := by
    rintro (_ | _ | _ | _ | pc) m a v ty h rfl
    · cases h
    · have ha : 100 ≤ a ∧ a < 104 := by
        by_contra hout
        simp [firstTouch, show ¬100 = a by omega, show ¬101 = a by omega, show ¬102 = a by omega,
          show ¬103 = a by omega] at h
      refine Prod.ext rfl (funext fun x => ?_)
      by_cases hx : x = a <;> simp_all
    · cases h
    · by_cases ha : 102 = a <;> simp [firstTouch, ha] at h
    · cases h

theorem def_use_pruning_sound_storeTrace :
    ∃ imp, copyToDatabase { addressBits := 32 } .memory storeTrace = some imp ∧
      ∀ t < 5, ∃ row, rowsAt imp 102 t = [row] ∧ ∀ f : BitVec 8 → BitVec 8, row.isFake = false →
        storeMachine.inject (0, fun _ => 0) f 102 t 5 =
          storeMachine.inject (0, fun _ => 0) f 102 row.instr2 5 := by
  have hreports : kept { addressBits := 32 } .memory (accesses { addressBits := 32 } .memory 0 0 storeTrace) =
      kept { addressBits := 32 } .memory
        (storeMachine.accesses (0, fun _ => 0) (instructionCount storeTrace)) := by
    decide +kernel
  have hkind : Kind.memory.Splits := trivial
  obtain ⟨imp, hrun, hrows⟩ := def_use_pruning_sound ⟨rfl, fun _ _ => rfl⟩ hkind (importable_storeTrace none)
    (by decide) (by simp [Kind.unusedAddresses]) hreports
  refine ⟨imp, hrun, fun t ht => ?_⟩
  obtain ⟨row, hrow, hfaults⟩ := hrows 102 (.inl ⟨rfl, ⟨3, 102, .read⟩, by decide +kernel, rfl⟩) t ht
  exact ⟨row, hrow, fun f hreal => ((hfaults f 5 le_rfl).1 hreal).1⟩

end FailStar.ImportTrace
