import FailStar.Foundations.DefUse

/-! # Faults between two accesses

A machine executes instructions on a state of its own and on cells that it sees only through its accesses. A
fault changes one cell in front of an instruction. What becomes of it is decided by the first access to the cell
from there on: until then nothing depends on the cell, and if the access overwrites the cell, nothing ever will.

* **`Machine`** — what an instruction does, with the two laws that tie it to its accesses; **`Machine.inject`** —
  a run with a fault.
* **`Machine.inject_eq_of_quiet`**, **`Machine.inject_eq_run_of_overwritten`** — the fault may as well hit right
  in front of the first access, or not at all. -/

namespace FailStar

variable {σ α β τ : Type*} [DecidableEq α]

/-- The type of the first access to a cell. -/
def firstTouch (xs : List (α × τ)) (a : α) : Option τ := (xs.find? fun x => x.1 = a).map Prod.snd

/-- **A machine with cells**: what an instruction does, and the accesses it makes, in their order. -/
structure Machine (σ α β τ : Type*) [DecidableEq α] where
  exec : σ × (α → β) → σ × (α → β)
  touches : σ × (α → β) → List (α × τ)
  /-- An access of this type does not depend on the value of the cell and replaces it. -/
  overwrites : τ → Prop
  /-- A cell that is not accessed has no influence and keeps its value. -/
  exec_update_of_untouched : ∀ s m a v, (∀ x ∈ touches (s, m), x.1 ≠ a) →
    exec (s, Function.update m a v) = ((exec (s, m)).1, Function.update (exec (s, m)).2 a v)
  /-- A cell that is overwritten first has no influence. -/
  exec_update_of_overwritten : ∀ s m a v ty, firstTouch (touches (s, m)) a = some ty → overwrites ty →
    exec (s, Function.update m a v) = exec (s, m)

namespace Machine

variable (M : Machine σ α β τ)

/-- The state behind `n` instructions. -/
def run (n : ℕ) (st : σ × (α → β)) : σ × (α → β) := M.exec^[n] st

/-- **The accesses of the first `n` instructions**, with the numbers of the instructions. -/
def accesses (st : σ × (α → β)) : ℕ → List (Access α τ)
  | 0 => []
  | n + 1 => accesses st n ++ (M.touches (M.run n st)).map fun x => ⟨n, x.1, x.2⟩

/-- A fault changes the value of one cell. -/
def disturb (f : β → β) (a : α) (st : σ × (α → β)) : σ × (α → β) :=
  (st.1, Function.update st.2 a (f (st.2 a)))

/-- **A run with a fault**: the state behind `n` instructions if the fault hits in front of instruction `t`. -/
def inject (st : σ × (α → β)) (f : β → β) (a : α) (t n : ℕ) : σ × (α → β) :=
  M.run (n - t) (disturb f a (M.run t st))

/-- The cell is not accessed from instruction `t` on, before instruction `i`. -/
def Quiet (st : σ × (α → β)) (a : α) (t i : ℕ) : Prop :=
  ∀ k, t ≤ k → k < i → ∀ x ∈ M.touches (M.run k st), x.1 ≠ a

variable {M} {st : σ × (α → β)} {f : β → β} {a : α} {t i n : ℕ} {ty : τ}

theorem run_succ (n : ℕ) (st : σ × (α → β)) : M.run (n + 1) st = M.exec (M.run n st) :=
  Function.iterate_succ_apply' M.exec n st

theorem run_add (k n : ℕ) (st : σ × (α → β)) : M.run (k + n) st = M.run k (M.run n st) :=
  Function.iterate_add_apply M.exec k n st

/-! ## What becomes of a fault -/

theorem exec_disturb (h : ∀ x ∈ M.touches st, x.1 ≠ a) : M.exec (disturb f a st) = disturb f a (M.exec st) := by
  obtain ⟨s, m⟩ := st
  -- writing back its own value shows that the cell keeps it
  have hkeeps : (M.exec (s, m)).2 a = m a := by
    have hself := M.exec_update_of_untouched s m a (m a) h
    rw [Function.update_eq_self] at hself
    exact (congrFun (congrArg Prod.snd hself) a).trans (Function.update_self ..)
  rw [disturb, disturb, M.exec_update_of_untouched s m a _ h, hkeeps]

/-- **A cell that is not accessed keeps a fault.** -/
theorem Quiet.run_disturb (h : M.Quiet st a t i) (hle : t ≤ i) :
    M.run (i - t) (disturb f a (M.run t st)) = disturb f a (M.run i st) := by
  induction i, hle using Nat.le_induction with
  | base => rw [Nat.sub_self]; rfl
  | succ i hle ih =>
    have hquiet : M.Quiet st a t i := fun k htk hki => h k htk (hki.trans (Nat.lt_succ_self i))
    rw [Nat.succ_sub hle, run_succ, ih hquiet, exec_disturb (h i hle (Nat.lt_succ_self i)), run_succ]

/-- **The fault may as well hit right in front of the next access.** -/
theorem inject_eq_of_quiet (h : M.Quiet st a t i) (hle : t ≤ i) (hn : i ≤ n) :
    M.inject st f a t n = M.inject st f a i n := by
  rw [inject, show n - t = (n - i) + (i - t) by omega, run_add, h.run_disturb hle]
  rfl

/-- **A fault in a cell that is overwritten next has no effect.** -/
theorem inject_eq_run_of_overwritten (h : M.Quiet st a t i) (hle : t ≤ i) (hn : i < n)
    (hfirst : firstTouch (M.touches (M.run i st)) a = some ty) (hty : M.overwrites ty) :
    M.inject st f a t n = M.run n st := by
  have hexec : M.exec (disturb f a (M.run i st)) = M.exec (M.run i st) :=
    M.exec_update_of_overwritten _ _ _ _ _ hfirst hty
  calc M.inject st f a t n = M.run (n - (i + 1) + 1) (disturb f a (M.run i st)) := by
        rw [inject_eq_of_quiet h hle hn.le, inject, show n - i = n - (i + 1) + 1 by omega]
    _ = M.run (n - (i + 1)) (M.run (i + 1) st) := by
        rw [run_add, run_succ i st, ← hexec]
        rfl
    _ = M.run n st := by rw [← run_add, Nat.sub_add_cancel hn]

/-! ## The accesses of a run -/

theorem mem_accesses {x : Access α τ} :
    x ∈ M.accesses st n ↔ x.instr < n ∧ (x.address, x.type) ∈ M.touches (M.run x.instr st) := by
  induction n with
  | zero => simp [accesses]
  | succ n ih =>
    rw [accesses, List.mem_append, ih, List.mem_map]
    constructor
    · rintro (⟨hlt, hx⟩ | ⟨y, hy, rfl⟩)
      · exact ⟨Nat.lt_succ_of_lt hlt, hx⟩
      · exact ⟨Nat.lt_succ_self n, hy⟩
    · rintro ⟨hlt, hx⟩
      rcases Nat.lt_succ_iff_lt_or_eq.mp hlt with hlt | rfl
      · exact .inl ⟨hlt, hx⟩
      · exact .inr ⟨_, hx, rfl⟩

/-- The first access of an instruction to a cell, found among the accesses of the run. -/
theorem find?_accesses (st : σ × (α → β)) (a : α) (hi : i < n) :
    ((M.accesses st n).find? fun x => x.address = a ∧ x.instr = i).map Access.type =
      firstTouch (M.touches (M.run i st)) a := by
  induction n with
  | zero => exact absurd hi (Nat.not_lt_zero i)
  | succ n ih =>
    rw [accesses, List.find?_append]
    rcases Nat.lt_succ_iff_lt_or_eq.mp hi with hlt | rfl
    · have hnone : ((M.touches (M.run n st)).map fun x => (⟨n, x.1, x.2⟩ : Access α τ)).find?
          (fun x => x.address = a ∧ x.instr = i) = none := by simp [hlt.ne']
      rw [hnone, Option.or_none, ih hlt]
    · have hnone : (M.accesses st i).find? (fun x => x.address = a ∧ x.instr = i) = none := by
        refine List.find?_eq_none.mpr fun x hx => ?_
        simp [(mem_accesses.mp hx).1.ne]
      rw [hnone, Option.none_or, List.find?_map, Option.map_map, firstTouch]
      congr 1
      refine List.find?_congr fun x _ => ?_
      simp

/-- A cell is not accessed before its first access, which is the first one of its instruction. -/
theorem quiet_of_firstAccess (h : FirstAccess (M.accesses st n) a t i ty) :
    i < n ∧ M.Quiet st a t i ∧ firstTouch (M.touches (M.run i st)) a = some ty := by
  obtain ⟨y, hy, -, rfl⟩ := h.exists_mem
  obtain ⟨hlt, -⟩ := mem_accesses.mp hy
  refine ⟨hlt, fun k htk hki x hx hxa => ?_, by rw [← find?_accesses st a hlt]; exact h.type⟩
  have hle := h.least ⟨k, x.1, x.2⟩ (mem_accesses.mpr ⟨hki.trans hlt, hx⟩) hxa htk
  exact absurd hki (Nat.not_lt.mpr hle)

theorem quiet_of_forall_lt (h : ∀ x ∈ M.accesses st n, x.address = a → x.instr < t) : M.Quiet st a t n := by
  intro k htk hkn x hx hxa
  exact absurd (h ⟨k, x.1, x.2⟩ (mem_accesses.mpr ⟨hkn, hx⟩) hxa) (Nat.not_lt.mpr htk)

end Machine

end FailStar
