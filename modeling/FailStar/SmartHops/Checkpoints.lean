import FailStar.SmartHops.OptimalChains

/-! # Checkpoints of the hop calculator

If a chain gets too expensive, the offline tool puts a checkpoint in its place. A later position may delete the
checkpoint, and go on with the chain that was stored for it and its costs. As these costs are too high, the
tracked costs are above those of the chain, but never below, unless they wrap.

* **`AllSteps`** — what holds at every position of a run; **`AllSteps.of_invariant`** — the rule for invariants.
* **`HopState.source`** — the costs and the chain that hops are deleted from; **`Shortens`** — what deleting does
  to them.
* **`HopState.Covered.step`** — the costs cover all chains, and the threshold bounds the current one.
* **`threshold_bounds_costs`** — no emitted chain is more expensive than the threshold, unless costs wrap;
  **`fits_of_short_trace`** — which takes about `2 ^ 31` events. -/

namespace FailStar

variable {opts : HopOptions} {st st' : HopState} {p : ℕ} {es : List TraceEventTuple}
  {ds : List (ℕ × List TraceEventTuple)}

/-! ## All positions of a run -/

/-- `P` holds at every position of a run, as far as it gets. -/
def AllSteps (opts : HopOptions) (P : HopState → ℕ → List TraceEventTuple → Prop) :
    List (ℕ × List TraceEventTuple) → HopState → Prop
  | [], _ => True
  | (tracePos, es) :: ds, st =>
    P st tracePos es ∧ ∀ st' ∈ processPosition opts st tracePos es, AllSteps opts P ds st'

instance decidableAllSteps (opts : HopOptions) (P : HopState → ℕ → List TraceEventTuple → Prop)
    [∀ st p es, Decidable (P st p es)] :
    ∀ (ds : List (ℕ × List TraceEventTuple)) (st : HopState), Decidable (AllSteps opts P ds st)
  | [], _ => .isTrue trivial
  | (tracePos, es) :: ds, st =>
    have := fun st' => decidableAllSteps opts P ds st'
    inferInstanceAs
      (Decidable (P st tracePos es ∧ ∀ st' ∈ processPosition opts st tracePos es, AllSteps opts P ds st'))

/-- **The rule for invariants of a run** whose positions all meet the condition `P`. -/
theorem AllSteps.of_invariant {P Q : HopState → ℕ → List TraceEventTuple → Prop} {I : HopState → Prop}
    (hstep : ∀ {st p es}, I st → (∀ te ∈ es, Plain te) → P st p es →
      Q st p es ∧ ∀ st' ∈ processPosition opts st p es, I st')
    (hplain : ∀ d ∈ ds, ∀ te ∈ d.2, Plain te) (hinit : I st) (h : AllSteps opts P ds st) :
    AllSteps opts Q ds st := by
  induction ds generalizing st with
  | nil => trivial
  | cons d ds ih =>
    obtain ⟨hes, hds⟩ := List.forall_mem_cons.mp hplain
    obtain ⟨hnow, hrest⟩ := h
    obtain ⟨hholds, hkeeps⟩ := hstep hinit hes hnow
    exact ⟨hholds, fun st' hst' => ih hds (hkeeps st' hst') (hrest st' hst')⟩

/-- What holds behind every position holds of everything that is emitted. -/
theorem emitHops_of_allSteps {R : List ResultTuple × ℕ → Prop}
    (h : AllSteps opts (fun st p es => ∀ st' ∈ processPosition opts st p es, R (st'.result, st'.costs)) ds st) :
    ∀ r ∈ emitHops opts ds st, R r := by
  induction ds generalizing st with
  | nil => simp [emitHops]
  | cons d ds ih =>
    obtain ⟨hnow, hrest⟩ := h
    intro r hr
    rw [emitHops] at hr
    cases hprocess : processPosition opts st d.1 d.2 with
    | none => simp [hprocess] at hr
    | some st' =>
      simp only [hprocess, List.mem_cons] at hr
      rcases hr with rfl | hr
      · exact hnow st' hprocess
      · exact ih (hrest st' hprocess) r hr

/-! ## What is deleted -/

/-- **The costs and the chain that hops are deleted from**: those restored for the last deleted checkpoint, or
the current ones. -/
def HopState.source (opts : HopOptions) (st : HopState) (tracePos : ℕ) (es : List TraceEventTuple) :
    ℕ × List ResultTuple :=
  (st.restored opts tracePos es).getD (st.costs, st.result)

/-- The costs of the hops behind the first element of a chain. -/
def furtherCosts (chain : List ResultTuple) : ℕ := chainCost (fun _ => 0) hopCosts chain

/-- The costs are an `unsigned int`, and at least those of the chain. -/
structure Covers (opts : HopOptions) (a : ℕ × List ResultTuple) : Prop where
  le : chainCosts opts a.2 ≤ a.1
  lt : a.1 < 2 ^ 32

theorem covers_iff {a : ℕ × List ResultTuple} : Covers opts a ↔ chainCosts opts a.2 ≤ a.1 ∧ a.1 < 2 ^ 32 :=
  ⟨fun h => ⟨h.le, h.lt⟩, fun h => ⟨h.1, h.2⟩⟩

instance decidableCovers (opts : HopOptions) (a : ℕ × List ResultTuple) : Decidable (Covers opts a) :=
  decidable_of_iff' _ covers_iff

/-- Hops have been deleted from the end of a chain, together with their costs. -/
structure Shortens (opts : HopOptions) (a b : ℕ × List ResultTuple) : Prop where
  front : a.2 <+: b.2
  covers : Covers opts b → Covers opts a
  costs : Covers opts b → a.1 + furtherCosts b.2 = b.1 + furtherCosts a.2

theorem furtherCosts_reverse_cons (last preLast : ResultTuple) (rest : List ResultTuple) :
    furtherCosts (last :: preLast :: rest).reverse =
      furtherCosts (preLast :: rest).reverse + hopCosts preLast.1 last.1 := by
  rw [List.reverse_cons, List.reverse_cons, furtherCosts, chainCost_concat, furtherCosts]

theorem furtherCosts_le (chain : List ResultTuple) : furtherCosts chain ≤ 2 * (chain.length - 1) := by
  have hbehind : ∀ (te : TraceEventTuple) (chain : List ResultTuple), costBehind hopCosts te chain ≤
      2 * chain.length := by
    intro te chain
    induction chain generalizing te with
    | nil => exact Nat.zero_le _
    | cons hop chain ih =>
      have hle := hopCosts_le te hop.1
      have hrest := ih hop.1
      rw [costBehind, List.length_cons]
      omega
  cases chain with
  | nil => exact Nat.zero_le _
  | cons hop chain =>
    rw [furtherCosts, chainCost, Nat.zero_add]
    exact hbehind hop.1 chain

theorem deletionRule_shortens (opts : HopOptions) : DeletionRule (Shortens opts) where
  refl a := ⟨List.prefix_rfl, id, fun _ => rfl⟩
  delete {a costs last preLast rest} h := by
    have hle := hopCosts_le preLast.1 last.1
    have hchain : chainCosts opts (last :: preLast :: rest).reverse =
        chainCosts opts (preLast :: rest).reverse + hopCosts preLast.1 last.1 :=
          chainCosts_reverse_cons last preLast rest
    -- the costs cover the deleted hop, so that the subtraction does not wrap
    have hcovers : Covers opts (costs, (last :: preLast :: rest).reverse) →
        (costs + 2 ^ 32 - hopCosts preLast.1 last.1) % 2 ^ 32 = costs - hopCosts preLast.1 last.1 ∧
        Covers opts ((costs + 2 ^ 32 - hopCosts preLast.1 last.1) % 2 ^ 32, (preLast :: rest).reverse) := by
      rintro ⟨hcost, hlt⟩
      dsimp only at hcost hlt
      have hsub : (costs + 2 ^ 32 - hopCosts preLast.1 last.1) % 2 ^ 32 =
          costs - hopCosts preLast.1 last.1 := by omega
      refine ⟨hsub, ?_, Nat.mod_lt _ (Nat.two_pow_pos 32)⟩
      dsimp only
      omega
    refine ⟨?_, fun hb => h.covers (hcovers hb).2, fun hb => ?_⟩
    · rw [List.reverse_cons]
      exact h.front.trans (List.prefix_append _ _)
    · have hcosts := h.costs (hcovers hb).2
      rw [(hcovers hb).1] at hcosts
      obtain ⟨hcost, -⟩ := hb
      rw [furtherCosts_reverse_cons]
      dsimp only at hcost hcosts ⊢
      omega

/-- **What is left of the source.** -/
theorem shortens_source {bestTe : TraceEventTuple} {remaining : List ResultTuple} {costs : ℕ} {forbidden : Bool}
    (hfound : (st.select opts p es).hopFound = false) (hbest : (st.select opts p es).bestTe = some bestTe)
    (hdelete :
      deleteHops opts st.checkpoints (st.select opts p es).lastPos bestTe st.deletionFuel st.result.reverse
      st.costs = some (remaining, costs, forbidden)) :
    Shortens opts (costs, remaining.reverse) (st.source opts p es) := by
  have hleaves := deleteHops_leaves (deletionRule_shortens opts) opts _ _ _ _ hdelete
  rw [List.reverse_reverse] at hleaves
  rwa [HopState.source, HopState.restored, hfound, if_neg Bool.false_ne_true, hbest, Option.bind_some]

theorem Shortens.le {a b : ℕ × List ResultTuple} (h : Shortens opts a b) (hb : Covers opts b) : a.1 ≤ b.1 := by
  have hcosts := h.costs hb
  have hle : furtherCosts a.2 ≤ furtherCosts b.2 := by
    obtain ⟨rest, hrest⟩ := h.front
    rw [← hrest]
    exact chainCost_le_append ..
  omega

section Deletion

variable {cps : List (ℕ × List ResultTuple)} {lastPos : ℕ} {bestTe : TraceEventTuple} {fuel : ℕ}
  {chain : List ResultTuple}

theorem deletedPair_mem {pair : ℕ × List ResultTuple}
    (h : pair ∈ deletedPair opts cps lastPos bestTe fuel chain) :
    pair ∈ cps := by
  -- the pair restored last is that of a later iteration, or this one's
  have hlater : ∀ {later : Option (ℕ × List ResultTuple)} {id : ℕ} {now pair : ℕ × List ResultTuple},
      (∀ pair ∈ later, pair ∈ cps) → cps[id]? = some now → some (later.getD now) = some pair → pair ∈ cps := by
    intro later id now pair hlater hnow heq
    rw [← Option.some.inj heq]
    cases later with
    | none => exact List.mem_of_getElem? hnow
    | some later => exact hlater later rfl
  induction fuel generalizing chain pair with
  | zero => cases chain <;> cases h
  | succ fuel ih =>
    match chain, h with
    | [last], h =>
      rw [deletedPair] at h
      split at h
      · split at h
        · cases h
        · rename_i now hnow
          repeat (split at h; · cases h)
          exact hlater (fun pair hpair => ih hpair) hnow h
      · cases h
    | last :: preLast :: rest, h =>
      rw [deletedPair] at h
      split at h
      · cases h
      · split at h
        · split at h
          · cases h
          · rename_i now hnow
            exact hlater (fun pair hpair => ih hpair) hnow h
        · exact ih h

/-- **The checkpoint is forbidden only behind a checkpoint.** -/
theorem singleton_of_forbidden {remaining : List ResultTuple} {costs costs' : ℕ}
    (h : deleteHops opts cps lastPos bestTe fuel chain costs = some (remaining, costs', true)) :
    ∃ last : ResultTuple, remaining = [last] ∧ last.1.2 = .checkpoint := by
  -- along the loop of `deleteHops`: of its exits only the one at a lone checkpoint sets the flag
  induction fuel generalizing chain costs with
  | zero => cases chain <;> simp [deleteHops] at h
  | succ fuel ih =>
    rcases chain with _ | ⟨last, _ | ⟨preLast, rest⟩⟩
    · simp [deleteHops] at h
    · rw [deleteHops] at h
      split at h
      · rename_i hcp
        split at h
        · cases h
        · split at h
          · simp at h
          · split at h
            · cases h
            · split at h
              · simp only [Option.some.injEq, Prod.mk.injEq, and_true] at h
                exact ⟨last, h.1.symm, hcp⟩
              · split at h
                · simp at h
                · exact ih h
      · simp at h
    · rw [deleteHops] at h
      split at h
      · simp at h
      · split at h
        · split at h
          · cases h
          · exact ih h
        · exact ih h

end Deletion

theorem HopState.source_mem (opts : HopOptions) (st : HopState) (p : ℕ) (es : List TraceEventTuple) :
    st.source opts p es ∈ (st.costs, st.result) :: st.checkpoints := by
  rw [HopState.source]
  cases hrestored : st.restored opts p es with
  | none => exact List.mem_cons_self
  | some pair =>
    rw [HopState.restored] at hrestored
    split at hrestored
    · cases hrestored
    · obtain ⟨bestTe, -, hpair⟩ := Option.bind_eq_some_iff.mp hrestored
      exact List.mem_cons_of_mem _ (deletedPair_mem hpair)

theorem bestTe_mem (opts : HopOptions) (st : HopState) (p : ℕ) (es : List TraceEventTuple) :
    ∀ te ∈ (st.select opts p es).bestTe, te ∈ es ∧ opts.considers te = true := by
  induction es using List.reverseRecOn with
  | nil => simp [HopState.select]
  | append_singleton es te ih =>
    have hstep : st.select opts p (es ++ [te]) = considerEvent opts p (st.select opts p es) te :=
      List.foldl_concat ..
    rw [hstep]
    generalize st.select opts p es = sel at ih
    have hold : ∀ best ∈ sel.bestTe, best ∈ es ++ [te] ∧ opts.considers best = true := fun best hbest =>
      (ih best hbest).imp_left (List.mem_append_left _)
    rw [considerEvent]
    split
    · rename_i hconsiders
      dsimp only
      split
      · split
        · exact hold
        · exact hold
      · split
        · simp [hconsiders]
        · exact hold
    · exact hold

/-- A hop behind a checkpoint is to another event. -/
theorem hopCosts_of_checkpoint {prev te : TraceEventTuple} (hprev : prev.2 = .checkpoint) (hte : Plain te) :
    hopCosts prev te = costChange := by
  rw [hopCosts, if_neg]
  rintro rfl
  exact hte.1 hprev

/-! ## Costs and the threshold -/

/-- The costs at a position do not wrap. -/
def HopState.Fits (opts : HopOptions) (st : HopState) (tracePos : ℕ) (es : List TraceEventTuple) : Prop :=
  (st.select opts tracePos es).hopFound = false → (st.source opts tracePos es).1 + 2 < 2 ^ 32

/-- The costs of the current chain and of all stored ones cover them. -/
def HopState.Covered (opts : HopOptions) (st : HopState) : Prop :=
  ∀ a ∈ (st.costs, st.result) :: st.checkpoints, Covers opts a

/-- The costs left of the source, with one more hop. -/
theorem Covers.hop {a b : ℕ × List ResultTuple} (hb : Covers opts b) (h : Shortens opts a b)
    (hfits : b.1 + 2 < 2 ^ 32)
    (prev te : TraceEventTuple) :
    (a.1 + hopCosts prev te) % 2 ^ 32 = a.1 + hopCosts prev te ∧ chainCosts opts a.2 ≤ a.1 := by
  have hle := hopCosts_le prev te
  have hshorter := h.le hb
  exact ⟨Nat.mod_eq_of_lt (by omega), (h.covers hb).le⟩

/-- **Behind a position, the costs still cover all chains**, and the threshold bounds the current one, if there
are checkpoints. -/
theorem HopState.Covered.step (hopts : opts.Accepted) (hcovered : st.Covered opts) (hplain : ∀ te ∈ es, Plain te)
    (hfits : st.Fits opts p es) (h : processPosition opts st p es = some st') :
    st'.Covered opts ∧ (opts.useCheckpoints = true → chainCosts opts st'.result ≤ opts.cpThresh) := by
  obtain ⟨-, hstored⟩ := List.forall_mem_cons.mp hcovered
  rcases processPosition_eq_some h with ⟨hfound, hresult, hcosts, hcps, -⟩ |
    ⟨hfound, bestTe, back, older, costs, forbidden, hbest, hdelete, hcases⟩
  · -- a new event costs 1
    obtain ⟨hone, te, hte, hsingle⟩ := (select_costs opts st p es).2 hfound
    have hchain : chainCosts opts st'.result = 1 := by
      rw [hresult, hsingle, chainCosts, chainCost_singleton, HopOptions.firstCosts, if_neg (hplain te hte).1,
        costChange]
    refine ⟨List.forall_mem_cons.mpr ⟨⟨?_, ?_⟩, hcps ▸ hstored⟩, fun huse => ?_⟩
    · dsimp only
      rw [hchain, hcosts, hone, costChange]
    · dsimp only
      rw [hcosts, hone]
      decide
    · obtain ⟨hcost, -⟩ := hopts huse
      omega
  · have hsource : Covers opts (st.source opts p es) := hcovered _ (st.source_mem opts p es)
    have hshort := shortens_source hfound hbest hdelete
    obtain ⟨hmod, hle⟩ := hsource.hop hshort (hfits hfound) back.1 bestTe
    have hlt : (costs + hopCosts back.1 bestTe) % 2 ^ 32 < 2 ^ 32 := Nat.mod_lt _ (Nat.two_pow_pos 32)
    dsimp only at hmod hle
    rcases hcases with ⟨-, ⟨huse, -⟩, hcps, -, hcosts, hresult⟩ | ⟨-, hcheap, hcps, -, hcosts, hresult⟩
    · obtain ⟨hcost, -, hthresh⟩ := hopts huse
      have hchain : chainCosts opts st'.result = opts.costCp := by
        rw [hresult, chainCosts, chainCost_singleton, HopOptions.firstCosts, if_pos rfl]
      refine ⟨List.forall_mem_cons.mpr ⟨⟨hchain.trans_le hcosts.ge, ?_⟩, ?_⟩, fun _ => by omega⟩
      · dsimp only
        omega
      · rw [hcps]
        refine List.forall_mem_append.mpr ⟨hstored, List.forall_mem_singleton.mpr ⟨?_, hlt⟩⟩
        dsimp only
        omega
    · have hchain : chainCosts opts st'.result = chainCosts opts (back :: older).reverse +
        hopCosts back.1 bestTe := by
        rw [hresult, chainCosts, chainCost_concat, chainCosts, List.reverse_cons]
      refine ⟨List.forall_mem_cons.mpr ⟨⟨?_, ?_⟩, hcps ▸ hstored⟩, fun huse => ?_⟩
      · dsimp only
        omega
      · exact hcosts ▸ hlt
      · cases forbidden with
        | false =>
          have hcheap := hcheap huse rfl
          omega
        | true =>
          -- the tracked costs may be above the threshold, but the chain is a checkpoint and one hop to another
          -- event
          obtain ⟨last, hsingle, hcp⟩ := singleton_of_forbidden hdelete
          obtain ⟨rfl, rfl⟩ := List.cons.inj hsingle
          have hhop := hopCosts_of_checkpoint hcp (hplain bestTe (bestTe_mem opts st p es bestTe hbest).1)
          rw [hchain, hhop, List.reverse_singleton, chainCosts, chainCost_singleton, HopOptions.firstCosts,
            if_pos hcp]
          exact (hopts huse).1

theorem covered_init (opts : HopOptions) : HopState.Covered opts {} := by
  refine List.forall_mem_cons.mpr ⟨⟨le_rfl, by decide⟩, fun pair hpair => ?_⟩
  exact absurd hpair List.not_mem_nil

/-- **The threshold bounds the costs of all chains**, in every run whose costs do not wrap. -/
theorem threshold_bounds_costs (w : ℕ) (events : List TraceEvent) (numInst : ℕ) (hopts : opts.Accepted)
    (huse : opts.useCheckpoints = true)
    (hfits : AllSteps opts (HopState.Fits opts)
      ((TraceReader.openTraceFile events numInst).deliveries w (events.length + 2)) {}) :
    ∀ r ∈ (calculateAllHops w opts (.openTraceFile events numInst)).1, chainCosts opts r.1 ≤ opts.cpThresh := by
  rw [calculateAllHops_eq_emitHops]
  refine emitHops_of_allSteps (AllSteps.of_invariant (I := HopState.Covered opts) ?_ (plain_of_deliveries w _ _)
    (covered_init opts) hfits)
  intro st p es hcovered hplain hfits
  exact ⟨fun st' hst' => (hcovered.step hopts hplain hfits hst').2 huse,
    fun st' hst' => (hcovered.step hopts hplain hfits hst').1⟩

theorem HopState.Covered.costs_le {bound : ℕ} (hcovered : st.Covered opts) (hcp : opts.costCp ≤ bound)
    (hpos : 0 < bound) (hbound : ∀ a ∈ (st.costs, st.result) :: st.checkpoints, a.1 ≤ bound)
    (h : processPosition opts st p es = some st') :
    ∀ a ∈ (st'.costs, st'.result) :: st'.checkpoints, a.1 ≤ bound + 2 := by
  have hstored : ∀ a ∈ st.checkpoints, a.1 ≤ bound + 2 := fun a ha =>
    (hbound a (List.mem_cons_of_mem _ ha)).trans (Nat.le_add_right _ _)
  rcases processPosition_eq_some h with ⟨hfound, -, hcosts, hcps, -⟩ |
    ⟨hfound, bestTe, back, older, costs, forbidden, hbest, hdelete, hcases⟩
  · have hone := ((select_costs opts st p es).2 hfound).1
    rw [hcps, hcosts, hone, costChange]
    refine List.forall_mem_cons.mpr ⟨?_, hstored⟩
    dsimp only
    omega
  · -- deleting hops makes no chain more expensive, and the new hop adds 2 at most
    have hmem := st.source_mem opts p es
    have hle : costs ≤ _ := (shortens_source hfound hbest hdelete).le (hcovered _ hmem)
    have hsource := hbound _ hmem
    have hhop := hopCosts_le back.1 bestTe
    have hmod := Nat.mod_le (costs + hopCosts back.1 bestTe) (2 ^ 32)
    have hnew : (costs + hopCosts back.1 bestTe) % 2 ^ 32 ≤ bound + 2 := by omega
    rcases hcases with ⟨-, -, hcps, -, hcosts, -⟩ | ⟨-, -, hcps, -, hcosts, -⟩
    · rw [hcps, hcosts]
      exact List.forall_mem_cons.mpr ⟨hcp.trans (Nat.le_add_right _ _),
        List.forall_mem_append.mpr ⟨hstored, List.forall_mem_singleton.mpr hnew⟩⟩
    · rw [hcps, hcosts]
      exact List.forall_mem_cons.mpr ⟨hnew, hstored⟩

/-- **The costs of a short run do not wrap.** -/
theorem fits_of_short (hopts : opts.Accepted) {bound : ℕ}
    (hcp : opts.costCp ≤ bound) (hpos : 0 < bound) (hplain : ∀ d ∈ ds, ∀ te ∈ d.2, Plain te)
    (hcovered : st.Covered opts) (hbound : ∀ a ∈ (st.costs, st.result) :: st.checkpoints, a.1 ≤ bound)
    (hshort : bound + 2 * ds.length < 2 ^ 32) : AllSteps opts (HopState.Fits opts) ds st := by
  induction ds generalizing st bound with
  | nil => trivial
  | cons d ds ih =>
    obtain ⟨hes, hds⟩ := List.forall_mem_cons.mp hplain
    rw [List.length_cons] at hshort
    have hfits : st.Fits opts d.1 d.2 := by
      intro _
      have hsource := hbound _ (st.source_mem opts d.1 d.2)
      omega
    refine ⟨hfits, fun st' hst' => ?_⟩
    exact ih (Nat.le_add_right_of_le hcp) (Nat.add_pos_left hpos 2) hds
      (hcovered.step hopts hes hfits hst').1 (hcovered.costs_le hcp hpos hbound hst') (by omega)

/-- **For traces of less than about `2 ^ 31` events, no costs wrap.** -/
theorem fits_of_short_trace (w : ℕ) (events : List TraceEvent) (numInst : ℕ) (hopts : opts.Accepted)
    (hshort : opts.costCp + 2 * events.length + 5 < 2 ^ 32) :
    AllSteps opts (HopState.Fits opts)
      ((TraceReader.openTraceFile events numInst).deliveries w (events.length + 2)) {} := by
  have hlen := TraceReader.length_deliveries_le w (events.length + 2) (.openTraceFile events numInst)
  have hinit : ∀ a ∈ (({} : HopState).costs, ({} : HopState).result) :: ({} : HopState).checkpoints,
      a.1 ≤ opts.costCp + 1 := by
    intro a ha
    obtain rfl : a = (0, []) := List.mem_singleton.mp ha
    exact Nat.zero_le _
  exact fits_of_short hopts (Nat.le_succ _) (Nat.succ_pos _) (plain_of_deliveries w _ _)
    (covered_init opts) hinit
    (by omega)

/-- One instruction, three executions of a second one, and the first one again. -/
def spinTrace : List TraceEvent := [{ ip := 10 }, { ip := 20 }, { ip := 20 }, { ip := 20 }, { ip := 10 }]

/-- Breakpoints with checkpoints, for which the fourth position of the trace is too expensive. -/
def spinOptions : HopOptions :=
  { useWatchpoints := false, useCheckpoints := true, cpThresh := 4, costCp := 1, rollbackThresh := 0 }

/-- A trace whose fourth position creates a checkpoint, which the fifth one deletes. -/
theorem threshold_bounds_costs_spinTrace : spinOptions.Accepted ∧
    ∀ r ∈ (calculateAllHops 32 spinOptions (.openTraceFile spinTrace)).1, chainCosts spinOptions r.1 ≤ 4 := by
  have haccepted : spinOptions.Accepted := fun _ => by decide
  exact ⟨haccepted, threshold_bounds_costs 32 spinTrace 0 haccepted rfl
    (fits_of_short_trace 32 spinTrace 0 haccepted (by decide))⟩

/-! ## The highest threshold -/

/-- The options with checkpoints and the highest threshold. -/
def HopOptions.withHighestThreshold (opts : HopOptions) : HopOptions :=
  { opts with useCheckpoints := true, cpThresh := 2 ^ 32 - 1 }

theorem deleteHops_withHighestThreshold (cps : List (ℕ × List ResultTuple)) (lastPos : ℕ)
    (bestTe : TraceEventTuple) (fuel : ℕ) (chain : List ResultTuple) (costs : ℕ) :
    deleteHops opts.withHighestThreshold cps lastPos bestTe fuel chain costs =
      deleteHops opts cps lastPos bestTe fuel chain costs := by
  have hstops : stopsAt opts.withHighestThreshold lastPos bestTe = stopsAt opts lastPos bestTe := rfl
  have hrollback : opts.withHighestThreshold.rollbackThresh = opts.rollbackThresh := rfl
  induction fuel generalizing chain costs with
  | zero => cases chain <;> rfl
  | succ fuel ih =>
    match chain with
    | [] => rfl
    | [last] => simp only [deleteHops, hstops, hrollback, ih]
    | last :: preLast :: rest => simp only [deleteHops, hstops, ih]

/-- **With the highest threshold, no checkpoint is ever created**: no `unsigned int` is above it. -/
theorem processPosition_withHighestThreshold (hoff : opts.useCheckpoints = false) (st : HopState) (p : ℕ)
    (es : List TraceEventTuple) :
    processPosition opts.withHighestThreshold st p es = processPosition opts st p es := by
  have hselect : considerEvent opts.withHighestThreshold p = considerEvent opts p := rfl
  have hcheap : ∀ costs : ℕ, decide (opts.withHighestThreshold.cpThresh < costs % 2 ^ 32) = false := by
    intro costs
    have hlt : costs % 2 ^ 32 < 2 ^ 32 := Nat.mod_lt _ (Nat.two_pow_pos 32)
    exact decide_eq_false (Nat.not_lt.mpr (Nat.le_sub_one_of_lt hlt))
  simp only [processPosition, hselect, deleteHops_withHighestThreshold, hcheap, hoff, Bool.and_false,
    Bool.false_and, Bool.false_eq_true, if_false]

theorem emitHops_withHighestThreshold (hoff : opts.useCheckpoints = false) :
    emitHops opts.withHighestThreshold ds st = emitHops opts ds st := by
  induction ds generalizing st with
  | nil => rfl
  | cons d ds ih => simp only [emitHops, processPosition_withHighestThreshold hoff, ih]

/-- **The costs wrap below the threshold**: no checkpoint helps on the way to the last of `2 ^ 31 + 1` executions
of one instruction. -/
theorem spin_exceeds_threshold :
    breakpointOptions.withHighestThreshold.Accepted ∧
      ∃ chain, (calculateAllHops 32 breakpointOptions.withHighestThreshold
          (.openTraceFile (List.replicate 2147483649 { ip := 10 }))).1[2147483648]? = some (chain, 1) ∧
        breakpointOptions.withHighestThreshold.cpThresh <
          chainCosts breakpointOptions.withHighestThreshold chain := by
  refine ⟨fun _ => by decide, ?_⟩
  obtain ⟨chain, hget, -, hcosts⟩ := calculateAllHops_replicate (n := 2147483649) (by decide) (by decide)
  refine ⟨chain, ?_, ?_⟩
  · rw [calculateAllHops_eq_emitHops, emitHops_withHighestThreshold rfl, ← calculateAllHops_eq_emitHops]
    exact hget
  · have hsame : chainCosts breakpointOptions.withHighestThreshold chain =
      chainCosts breakpointOptions chain := rfl
    rw [hsame, hcosts]
    decide

end FailStar
