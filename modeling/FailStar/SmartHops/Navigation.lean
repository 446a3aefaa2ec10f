import FailStar.Foundations.FirstMin
import FailStar.Foundations.HopChain
import FailStar.SmartHops.Algorithm

/-! # Hop chains lead to their position

The invariant of the hop calculator: behind position `k` it knows the last position of every event up
to `k`, and holds a hop chain to `k`. A chain to the next position is found by keeping some front part
of the current chain that reaches at least the last position of an event of the next position.

* **`ChainUpTo`** — the invariant; **`processPosition_chainUpTo`** — one position keeps it.
* **`hopStateAt`** — the state behind a position; **`hopMessage`** — the message for it.
* **`hop_chain_correct`** — the chains `SmartHops` and `SmartAlgorithm` compute are correct. -/

namespace FailStar

variable {opts : HopOptions} {occ : ℕ → TraceEventTuple → Prop} {k p : ℕ} {st : HopState}
  {es : List TraceEventTuple} {te : TraceEventTuple}

/-- An event of a trace: neither a checkpoint nor an access that is read or write. -/
def Plain (te : TraceEventTuple) : Prop := te.2 ≠ .checkpoint ∧ te.2 ≠ .readOrWrite

/-- **The state of the calculator behind position `k`.** -/
structure ChainUpTo (opts : HopOptions) (occ : ℕ → TraceEventTuple → Prop) (k : ℕ) (st : HopState) :
    Prop where
  last : ∀ te, opts.considers te = true → LastUpTo occ k te (st.lastPositions te)
  chain : HopChain occ 0 st.result
  target : hopTarget 0 st.result = k
  events : ∀ hop ∈ st.result, opts.considers hop.1 = true ∧ Plain hop.1

theorem chainUpTo_zero : ChainUpTo opts occ 0 {} :=
  ⟨fun _ _ => lastUpTo_zero, trivial, rfl, by simp⟩

/-! ## Choosing an event -/

/-- The last position of a known event. -/
def HopState.lastPosition (st : HopState) (te : TraceEventTuple) : ℕ := (st.lastPositions te).getD 0

/-- The first event of a position that never occurred before. -/
structure FirstNew (opts : HopOptions) (st : HopState) (es : List TraceEventTuple) (te : TraceEventTuple) :
    Prop where
  considered : opts.considers te = true
  new : st.lastPositions te = none
  split : ∃ front back, es = front ++ te :: back ∧
    ∀ te' ∈ front, opts.considers te' = true → st.lastPositions te' ≠ none

theorem FirstNew.mem (h : FirstNew opts st es te) : te ∈ es := by
  obtain ⟨front, back, rfl, -⟩ := h.split
  simp

theorem FirstNew.snoc (h : FirstNew opts st es te) (te' : TraceEventTuple) :
    FirstNew opts st (es ++ [te']) te := by
  obtain ⟨front, back, rfl, hfront⟩ := h.split
  exact ⟨h.considered, h.new, front, back ++ [te'], by simp, hfront⟩

/-- What the loop over the events of position `p` has found behind the events `seen`: the first new event,
or the first of the events with the smallest last position. -/
structure Selected (opts : HopOptions) (st : HopState) (p : ℕ) (seen : List TraceEventTuple)
    (sel : Selection) : Prop where
  positions : ∀ te, sel.lastPositions te =
    if opts.considers te = true ∧ te ∈ seen then some p else st.lastPositions te
  found : sel.hopFound = true → ∃ te, FirstNew opts st seen te ∧ sel.result = [(te, p)]
  kept : sel.hopFound = false → sel.result = st.result
  known : sel.hopFound = false → ∀ te ∈ seen, opts.considers te = true → st.lastPositions te ≠ none
  best : sel.hopFound = false →
    (sel.lastPos = 2 ^ 32 - 1 ∧ seen.filter opts.considers = []) ∨
    ∃ te, sel.bestTe = some te ∧ st.lastPositions te = some sel.lastPos ∧
      FirstMin st.lastPosition (2 ^ 32 - 1) (seen.filter opts.considers) te

theorem selected_nil (opts : HopOptions) (st : HopState) (p : ℕ) : Selected opts st p []
    { lastPositions := st.lastPositions, result := st.result, costs := st.costs } where
  positions := by simp
  found := by simp
  kept := fun _ => rfl
  known := by simp
  best := fun _ => .inl ⟨rfl, rfl⟩

theorem update_positions {seen : List TraceEventTuple} {f g : TraceEventTuple → Option ℕ}
    (h : ∀ te, f te = if opts.considers te = true ∧ te ∈ seen then some p else g te)
    (hte : opts.considers te = true) (te' : TraceEventTuple) :
    Function.update f te (some p) te' =
      if opts.considers te' = true ∧ te' ∈ seen ++ [te] then some p else g te' := by
  by_cases heq : te' = te
  · subst heq
    simp [hte]
  · rw [Function.update_of_ne heq, h]
    simp [heq]

section OneEvent

variable {seen : List TraceEventTuple} {sel : Selection}

theorem Selected.found_snoc (h : Selected opts st p seen sel) (te : TraceEventTuple)
    (hf : sel.hopFound = true) : ∃ te', FirstNew opts st (seen ++ [te]) te' ∧ sel.result = [(te', p)] := by
  obtain ⟨te', hnew, hres⟩ := h.found hf
  exact ⟨te', hnew.snoc te, hres⟩

theorem Selected.considerEvent_of_not_considers (h : Selected opts st p seen sel)
    (hte : ¬ opts.considers te = true) : Selected opts st p (seen ++ [te]) (considerEvent opts p sel te) := by
  have hmem : ∀ te', opts.considers te' = true → (te' ∈ seen ++ [te] ↔ te' ∈ seen) := by
    intro te' hte'
    rw [List.mem_append, List.mem_singleton, or_iff_left]
    rintro rfl
    exact hte hte'
  rw [considerEvent, if_neg hte]
  refine ⟨fun te' => ?_, h.found_snoc te, h.kept, fun hf te' hmem' hte' => ?_, fun hf => ?_⟩
  · rw [h.positions te']
    by_cases hte' : opts.considers te' = true
    · simp only [hmem te' hte']
    · simp only [hte', Bool.false_eq_true, false_and, if_false]
  · exact h.known hf te' ((hmem te' hte').mp hmem') hte'
  · rw [List.filter_append, List.filter_cons_of_neg hte, List.filter_nil, List.append_nil]
    exact h.best hf

/-- An event that never occurred before is a single hop, if it is the first one. -/
theorem Selected.considerEvent_of_none (h : Selected opts st p seen sel) (hte : opts.considers te = true)
    (hlp : sel.lastPositions te = none) :
    Selected opts st p (seen ++ [te]) (considerEvent opts p sel te) := by
  have hpositions := update_positions h.positions hte
  -- an event that was seen before has a last position
  have hnew : st.lastPositions te = none := by
    have hte' := h.positions te
    rw [hlp] at hte'
    split at hte'
    · cases hte'
    · exact hte'.symm
  rw [considerEvent, if_pos hte, hlp]
  by_cases hfound : sel.hopFound = true
  · simp only [hfound, if_true]
    exact ⟨hpositions, fun _ => h.found_snoc te hfound, by simp, by simp, by simp⟩
  · rw [Bool.not_eq_true] at hfound
    simp only [hfound]
    exact ⟨hpositions, fun _ => ⟨te, ⟨hte, hnew, seen, [], rfl, h.known hfound⟩, rfl⟩, by simp, by simp,
      by simp⟩

/-- The best event behind one more known event. An event that was seen before at position `p` does not
displace the best one, whose last position lies before `p`. -/
theorem Selected.best_snoc {pos : ℕ} (h : Selected opts st p seen sel)
    (hlt : ∀ te pos, opts.considers te = true → st.lastPositions te = some pos → pos < p)
    (hp : p < 2 ^ 32) (hte : opts.considers te = true) (hlp : sel.lastPositions te = some pos)
    (hf : sel.hopFound = false) :
    ∃ best, (if pos < sel.lastPos then some te else sel.bestTe) = some best ∧
      st.lastPositions best = some (if pos < sel.lastPos then pos else sel.lastPos) ∧
      FirstMin st.lastPosition (2 ^ 32 - 1) (seen.filter opts.considers ++ [te]) best := by
  have hcost : ∀ {te pos}, st.lastPositions te = some pos → st.lastPosition te = pos := by
    intro te pos hpos
    rw [HopState.lastPosition, hpos, Option.getD_some]
  by_cases hseen : te ∈ seen
  · have hmem : te ∈ seen.filter opts.considers := List.mem_filter.mpr ⟨hseen, hte⟩
    obtain rfl : p = pos := by
      rw [h.positions te, if_pos ⟨hte, hseen⟩] at hlp
      exact Option.some.inj hlp
    obtain ⟨b, hb, hlast, hmin⟩ := (h.best hf).resolve_left fun hnone => by
      rw [hnone.2] at hmem
      exact absurd hmem List.not_mem_nil
    have hbefore := hlt b _ (List.mem_filter.mp hmin.mem).2 hlast
    rw [if_neg (by omega), if_neg (by omega)]
    exact ⟨b, hb, hlast, hmin.snoc (hmin.le hmem)⟩
  · have hst : st.lastPositions te = some pos := by
      rw [← hlp, h.positions te, if_neg fun hc => hseen hc.2]
    have hpos := hlt te pos hte hst
    rcases h.best hf with ⟨hmax, hnone⟩ | ⟨b, hb, hlast, hmin⟩
    · rw [hmax, if_pos (by omega), if_pos (by omega)]
      refine ⟨te, rfl, hst, firstMin_snoc (by rw [hcost hst]; omega) ?_⟩
      simp [hnone]
    · by_cases hless : pos < sel.lastPos
      · rw [if_pos hless, if_pos hless]
        exact ⟨te, rfl, hst, hmin.snoc_of_lt (by rwa [hcost hst, hcost hlast])⟩
      · rw [if_neg hless, if_neg hless]
        exact ⟨b, hb, hlast, hmin.snoc (by rw [hcost hst, hcost hlast]; omega)⟩

/-- A known event is compared with the best one. -/
theorem Selected.considerEvent_of_some {pos : ℕ} (h : Selected opts st p seen sel)
    (hlt : ∀ te pos, opts.considers te = true → st.lastPositions te = some pos → pos < p)
    (hp : p < 2 ^ 32) (hte : opts.considers te = true) (hlp : sel.lastPositions te = some pos) :
    Selected opts st p (seen ++ [te]) (considerEvent opts p sel te) := by
  have hpositions := update_positions h.positions hte
  have hknown : sel.hopFound = false → ∀ te' ∈ seen ++ [te], opts.considers te' = true →
      st.lastPositions te' ≠ none := by
    intro hf te' hmem' hte'
    by_cases hseen : te' ∈ seen
    · exact h.known hf te' hseen hte'
    · obtain rfl : te' = te := by simpa [hseen] using hmem'
      rw [h.positions te', if_neg fun hc => hseen hc.2] at hlp
      simp [hlp]
  have hbest := h.best_snoc hlt hp hte hlp
  rw [considerEvent, if_pos hte, hlp]
  by_cases hless : pos < sel.lastPos
  · simp only [if_pos hless] at hbest ⊢
    refine ⟨hpositions, h.found_snoc te, h.kept, hknown, fun hf => .inr ?_⟩
    rw [List.filter_append, List.filter_cons_of_pos hte, List.filter_nil]
    exact hbest hf
  · simp only [if_neg hless] at hbest ⊢
    refine ⟨hpositions, h.found_snoc te, h.kept, hknown, fun hf => .inr ?_⟩
    rw [List.filter_append, List.filter_cons_of_pos hte, List.filter_nil]
    exact hbest hf

/-- **One more event.** -/
theorem Selected.considerEvent (h : Selected opts st p seen sel)
    (hlt : ∀ te pos, opts.considers te = true → st.lastPositions te = some pos → pos < p)
    (hp : p < 2 ^ 32) (te : TraceEventTuple) :
    Selected opts st p (seen ++ [te]) (considerEvent opts p sel te) := by
  by_cases hte : opts.considers te = true
  · cases hlp : sel.lastPositions te with
    | none => exact h.considerEvent_of_none hte hlp
    | some pos => exact h.considerEvent_of_some hlt hp hte hlp
  · exact h.considerEvent_of_not_considers hte

end OneEvent

/-- **The loop over the events of a position.** -/
theorem selected_foldl (hlt : ∀ te pos, opts.considers te = true → st.lastPositions te = some pos → pos < p)
    (hp : p < 2 ^ 32) {seen : List TraceEventTuple} {sel : Selection}
    (h : Selected opts st p seen sel) (es : List TraceEventTuple) :
    Selected opts st p (seen ++ es) (es.foldl (considerEvent opts p) sel) := by
  induction es generalizing seen sel with
  | nil => simpa using h
  | cons te es ih =>
    have hrest := ih (h.considerEvent hlt hp te)
    rwa [List.append_assoc, List.singleton_append] at hrest

/-! ## Deleting hops -/

/-- The deletion loop only passes hops behind the last position of the new event. -/
theorem le_of_not_stopsAt {lastPos : ℕ} {bestTe : TraceEventTuple} {preLast : ResultTuple}
    (h : ¬ stopsAt opts lastPos bestTe preLast) : lastPos ≤ preLast.2 := by
  simp only [stopsAt, Bool.or_eq_true, not_or, Bool.and_eq_true, Bool.not_eq_true',
    decide_eq_false_iff_not] at h
  cases hw : opts.useWeights <;> simp [hw] at h <;> omega

/-- **The deletion loop** keeps a front part of the chain that reaches the last position of the new
event, and goes on until it stops at a hop. -/
theorem deleteHops_spec (opts : HopOptions) (cps : List (ℕ × List ResultTuple))
    (bestTe : TraceEventTuple) {lastPos : ℕ} {last : ResultTuple} {rest : List ResultTuple}
    (hplain : ∀ hop ∈ last :: rest, Plain hop.1) (hlast : lastPos ≤ last.2) {fuel : ℕ}
    (hfuel : rest.length < fuel) (costs : ℕ) :
    ∃ back older costs', deleteHops opts cps lastPos bestTe fuel (last :: rest) costs =
        some (back :: older, costs', false) ∧
      back :: older <:+ last :: rest ∧ lastPos ≤ back.2 ∧
      (∀ preLast ∈ older.head?, stopsAt opts lastPos bestTe preLast = true) ∧
      (back :: older = last :: rest ∨ ¬ stopsAt opts lastPos bestTe back = true) := by
  induction rest generalizing last fuel costs with
  | nil =>
    obtain ⟨fuel, rfl⟩ := Nat.exists_eq_succ_of_ne_zero (Nat.ne_zero_of_lt hfuel)
    refine ⟨last, [], costs, ?_, List.suffix_rfl, hlast, by simp, .inl rfl⟩
    rw [deleteHops, if_neg (hplain last (List.mem_singleton_self last)).1]
  | cons preLast rest ih =>
    obtain ⟨fuel, rfl⟩ := Nat.exists_eq_succ_of_ne_zero (Nat.ne_zero_of_lt hfuel)
    rw [deleteHops]
    by_cases hstop : stopsAt opts lastPos bestTe preLast = true
    · exact ⟨last, preLast :: rest, costs, by rw [if_pos hstop], List.suffix_rfl,
        hlast, by simp [hstop], .inl rfl⟩
    · rw [if_neg hstop, if_neg (hplain last List.mem_cons_self).1]
      obtain ⟨back, older, costs', hdel, hsuffix, hback, hstops, hpassed⟩ :=
        ih (fun hop hhop => hplain hop (List.mem_cons_of_mem _ hhop)) (le_of_not_stopsAt hstop)
          (Nat.lt_of_succ_lt_succ hfuel) _
      refine ⟨back, older, costs', hdel, hsuffix.trans (List.suffix_cons last _), hback, hstops, .inr ?_⟩
      rcases hpassed with heq | hpassed
      · rwa [(List.cons.inj heq).1]
      · exact hpassed

/-- The deletion loop leaves a front part of the chain that reaches the last position of the new event. -/
theorem deleteHops_front (cps : List (ℕ × List ResultTuple)) (costs : ℕ) {best : TraceEventTuple}
    {lastPos fuel : ℕ} (h : ChainUpTo opts occ k st) (hpos : 0 < lastPos) (hle : lastPos ≤ k)
    (hfuel : st.result.length < fuel) :
    ∃ back older costs', deleteHops opts cps lastPos best fuel st.result.reverse costs =
        some (back :: older, costs', false) ∧
      (back :: older).reverse <+: st.result ∧ lastPos ≤ back.2 ∧
      (∀ preLast ∈ older.head?, stopsAt opts lastPos best preLast = true) ∧
      ((back :: older).reverse = st.result ∨ ¬ stopsAt opts lastPos best back = true) := by
  cases hrev : st.result.reverse with
  | nil =>
    -- an event with a last position lies behind at least one position
    have htarget := h.target
    rw [List.reverse_eq_nil_iff.mp hrev] at htarget
    simp only [hopTarget] at htarget
    omega
  | cons last rest =>
    have hresult : st.result = rest.reverse ++ [last] := by
      rw [← List.reverse_reverse st.result, hrev, List.reverse_cons]
    have hlast : last.2 = k := by
      rw [← h.target, hresult, hopTarget_concat]
    have hplain : ∀ hop ∈ last :: rest, Plain hop.1 := by
      intro hop hhop
      rw [← hrev, List.mem_reverse] at hhop
      exact (h.events hop hhop).2
    have hlen : rest.length < fuel := by
      rw [hresult, List.length_append, List.length_reverse, List.length_singleton] at hfuel
      omega
    obtain ⟨back, older, costs', hdel, hsuffix, hback, hstops, hpassed⟩ :=
      deleteHops_spec opts cps best hplain (hlast ▸ hle) hlen costs
    refine ⟨back, older, costs', hdel, ?_, hback, hstops, ?_⟩
    · rw [← List.reverse_suffix, List.reverse_reverse, hrev]
      exact hsuffix
    · rwa [List.reverse_eq_iff, hrev]

/-! ## One position -/

/-- **The chain behind position `p`**: the first new event alone, or else a front part of the chain before
that reaches the smallest last position, extended by a hop to the event that has it. -/
inductive Extends (opts : HopOptions) (st : HopState) (p : ℕ) (es : List TraceEventTuple) :
    List ResultTuple → Prop
  | new {te : TraceEventTuple} : FirstNew opts st es te → Extends opts st p es [(te, p)]
  | known {front : List ResultTuple} {best : TraceEventTuple} :
      (∀ te ∈ es, opts.considers te = true → st.lastPositions te ≠ none) →
      FirstMin st.lastPosition (2 ^ 32 - 1) (es.filter opts.considers) best →
      front <+: st.result → st.lastPosition best ≤ hopTarget 0 front →
      Extends opts st p es (front ++ [(best, p)])

theorem Selected.lastUpTo {sel : Selection} (hsel : Selected opts st (k + 1) es sel)
    (h : ChainUpTo opts occ k st) (hes : ∀ te, occ (k + 1) te ↔ te ∈ es) (te : TraceEventTuple)
    (hte : opts.considers te = true) : LastUpTo occ (k + 1) te (sel.lastPositions te) := by
  rw [hsel.positions te]
  by_cases hmem : te ∈ es
  · rw [if_pos ⟨hte, hmem⟩]
    exact lastUpTo_succ_self ((hes te).mpr hmem)
  · rw [if_neg (fun hseen => hmem hseen.2)]
    exact (h.last te hte).succ (fun hocc => hmem ((hes te).mp hocc))

theorem Extends.events {result : List ResultTuple} (h : Extends opts st p es result)
    (hold : ∀ hop ∈ st.result, opts.considers hop.1 = true ∧ Plain hop.1) (hplain : ∀ te ∈ es, Plain te) :
    ∀ hop ∈ result, opts.considers hop.1 = true ∧ Plain hop.1 := by
  intro hop hhop
  cases h with
  | new hnew =>
    obtain rfl := List.mem_singleton.mp hhop
    exact ⟨hnew.considered, hplain _ hnew.mem⟩
  | known _ hmin hfront _ =>
    rcases List.mem_append.mp hhop with hhop | hhop
    · exact hold hop (hfront.subset hhop)
    · obtain rfl := List.mem_singleton.mp hhop
      obtain ⟨hmem, hconsiders⟩ := List.mem_filter.mp hmin.mem
      exact ⟨hconsiders, hplain _ hmem⟩

/-- **The new chain leads to the position.** -/
theorem Extends.hopChain {result : List ResultTuple} (hext : Extends opts st (k + 1) es result)
    (h : ChainUpTo opts occ k st) (hes : ∀ te, occ (k + 1) te ↔ te ∈ es) :
    HopChain occ 0 result ∧ hopTarget 0 result = k + 1 := by
  cases hext with
  | @new te hnew =>
    have hup := h.last te hnew.considered
    rw [hnew.new] at hup
    exact ⟨⟨hup.firstAfter le_rfl (Nat.zero_le k) ((hes te).mpr hnew.mem), trivial⟩, rfl⟩
  | @known front best _ hmin hfront hreaches =>
    obtain ⟨hmem, hconsiders⟩ := List.mem_filter.mp hmin.mem
    obtain ⟨deleted, hdeleted⟩ := hfront
    have hchain := h.chain
    rw [← hdeleted] at hchain
    obtain ⟨hfront, htarget⟩ := hchain.of_append
    rw [hdeleted, h.target] at htarget
    refine ⟨hopChain_concat.mpr ⟨hfront, ?_⟩, hopTarget_concat 0 _ _⟩
    exact (h.last best hconsiders).firstAfter hreaches htarget ((hes best).mpr hmem)

/-- **One position**, with what the deletion loop leaves: it has stopped at the hop before the last one it
leaves, and not at the last one, unless it leaves the whole chain. -/
theorem processPosition_cases (h : ChainUpTo opts occ k st) (hopts : opts.useCheckpoints = false)
    (hk : k + 1 < 2 ^ 32) (hes : ∀ te, occ (k + 1) te ↔ te ∈ es)
    (hconsidered : ∃ te ∈ es, opts.considers te = true) :
    ∃ st', processPosition opts st (k + 1) es = some st' ∧
      (∀ te, opts.considers te = true → LastUpTo occ (k + 1) te (st'.lastPositions te)) ∧
      ((∃ te, FirstNew opts st es te ∧ st'.result = [(te, k + 1)]) ∨
        ∃ front back best, st'.result = front ++ [back] ++ [(best, k + 1)] ∧
          (∀ te ∈ es, opts.considers te = true → st.lastPositions te ≠ none) ∧
          FirstMin st.lastPosition (2 ^ 32 - 1) (es.filter opts.considers) best ∧
          front ++ [back] <+: st.result ∧ st.lastPosition best ≤ back.2 ∧
          (∀ hop ∈ front.getLast?, stopsAt opts (st.lastPosition best) best hop = true) ∧
          (front ++ [back] = st.result ∨ ¬ stopsAt opts (st.lastPosition best) best back = true)) := by
  have hlt : ∀ te pos, opts.considers te = true → st.lastPositions te = some pos → pos < k + 1 := by
    intro te pos hte hpos
    exact Nat.lt_succ_of_le ((h.last te hte).occurs pos hpos).2.1
  have hsel := selected_foldl hlt hk (selected_nil opts st (k + 1)) es
  rw [List.nil_append] at hsel
  rw [processPosition]
  generalize es.foldl (considerEvent opts (k + 1))
    { lastPositions := st.lastPositions, result := st.result, costs := st.costs } = sel at hsel ⊢
  have hlast := hsel.lastUpTo h hes
  by_cases hfound : sel.hopFound = true
  · exact ⟨_, if_pos hfound, hlast, .inl (hsel.found hfound)⟩
  · rw [Bool.not_eq_true] at hfound
    obtain ⟨te, hte, hconsiders⟩ := hconsidered
    obtain ⟨best, hbest, hbestPos, hmin⟩ := (hsel.best hfound).resolve_left fun hnone =>
      List.filter_eq_nil_iff.mp hnone.2 te hte hconsiders
    obtain ⟨hpos, hle, -⟩ := (h.last best (List.mem_filter.mp hmin.mem).2).occurs _ hbestPos
    have hlastPosition : st.lastPosition best = sel.lastPos := by
      rw [HopState.lastPosition, hbestPos, Option.getD_some]
    have hfuel : st.result.length < HopState.deletionFuel { st with
        lastPositions := sel.lastPositions, result := st.result, costs := sel.costs } := by
      simp only [HopState.deletionFuel]
      omega
    obtain ⟨back, older, costs, hdel, hfront, hback, hstops, hpassed⟩ :=
      deleteHops_front st.checkpoints sel.costs h hpos hle hfuel
    rw [List.reverse_cons] at hfront hpassed
    refine ⟨{ st with
      lastPositions := sel.lastPositions
      result := older.reverse ++ [back] ++ [(best, k + 1)]
      costs := (costs + hopCosts back.1 best) % 2 ^ 32 }, ?_, hlast, .inr ?_⟩
    · simp only [hfound, hbest, hsel.kept hfound, hopts, Bool.false_and, Bool.false_eq_true, if_false,
        Option.bind_eq_bind, Option.bind_some]
      rw [hdel, ← List.reverse_cons]
      rfl
    · refine ⟨older.reverse, back, best, rfl, hsel.known hfound, hmin, hfront, ?_, ?_, ?_⟩
      · rwa [hlastPosition]
      · rwa [hlastPosition, List.getLast?_reverse]
      · rwa [hlastPosition]

/-- **One position** extends the chain. -/
theorem processPosition_extends (h : ChainUpTo opts occ k st) (hopts : opts.useCheckpoints = false)
    (hk : k + 1 < 2 ^ 32) (hes : ∀ te, occ (k + 1) te ↔ te ∈ es)
    (hconsidered : ∃ te ∈ es, opts.considers te = true) :
    ∃ st', processPosition opts st (k + 1) es = some st' ∧ Extends opts st (k + 1) es st'.result ∧
      ∀ te, opts.considers te = true → LastUpTo occ (k + 1) te (st'.lastPositions te) := by
  obtain ⟨st', hst', hlast, hcases⟩ := processPosition_cases h hopts hk hes hconsidered
  refine ⟨st', hst', ?_, hlast⟩
  rcases hcases with ⟨te, hnew, hresult⟩ | ⟨front, back, best, hresult, hknown, hmin, hfront, hback, -⟩
  · rw [hresult]
    exact .new hnew
  · rw [hresult]
    refine .known hknown hmin hfront ?_
    rwa [hopTarget_concat]

/-- **One position keeps the invariant.** -/
theorem processPosition_chainUpTo (h : ChainUpTo opts occ k st) (hopts : opts.useCheckpoints = false)
    (hk : k + 1 < 2 ^ 32) (hes : ∀ te, occ (k + 1) te ↔ te ∈ es)
    (hconsidered : ∃ te ∈ es, opts.considers te = true) (hplain : ∀ te ∈ es, Plain te) :
    ∃ st', processPosition opts st (k + 1) es = some st' ∧ Extends opts st (k + 1) es st'.result ∧
      ChainUpTo opts occ (k + 1) st' := by
  obtain ⟨st', hst', hext, hlast⟩ := processPosition_extends h hopts hk hes hconsidered
  obtain ⟨hchain, htarget⟩ := hext.hopChain h hes
  exact ⟨st', hst', hext, hlast, hchain, htarget, hext.events h.events hplain⟩

/-! ## A whole trace -/

/-- **The state behind position `k`** of a trace. -/
def hopStateAt (opts : HopOptions) (ps : List (List TraceEventTuple)) : ℕ → Option HopState
  | 0 => some {}
  | k + 1 => (hopStateAt opts ps k).bind fun st => ps[k]?.bind (processPosition opts st (k + 1))

/-- The event is an access to a byte. -/
def IsAccess (te : TraceEventTuple) : Prop := te.2 = .read ∨ te.2 = .write

/-- Every position of a trace begins with an instruction fetch, and only accesses follow. -/
def TracePosition (es : List TraceEventTuple) : Prop :=
  ∃ fetch accesses, es = fetch :: accesses ∧ fetch.2 = .none ∧ ∀ te ∈ accesses, IsAccess te

theorem TracePosition.plain (h : TracePosition es) : ∀ te ∈ es, Plain te := by
  obtain ⟨fetch, accesses, rfl, hfetch, haccesses⟩ := h
  intro te hte
  rcases List.mem_cons.mp hte with rfl | hte
  · simp [Plain, hfetch]
  · rcases haccesses te hte with hacc | hacc <;> simp [Plain, hacc]

theorem isAccess_accessEvents (w : ℕ) (ev : TraceEvent) : ∀ te ∈ accessEvents w ev, IsAccess te := by
  intro te hte
  unfold accessEvents at hte
  split at hte
  · obtain ⟨i, -, rfl⟩ := List.mem_map.mp hte
    by_cases hread : ev.getAccesstype = .read
    · simp [hread, IsAccess]
    · simp [hread, IsAccess]
  · cases hte

theorem splitPositions_spec (w : ℕ) (stream : List TraceEvent) :
    (∀ te ∈ (splitPositions w stream).1, IsAccess te) ∧
      ∀ es ∈ (splitPositions w stream).2, TracePosition es := by
  induction stream with
  | nil => exact ⟨by simp [splitPositions], by simp [splitPositions]⟩
  | cons ev stream ih =>
    by_cases hmem : ev.hasMemaddr
    · rw [splitPositions, if_pos hmem]
      refine ⟨fun te hte => ?_, ih.2⟩
      rcases List.mem_append.mp hte with hte | hte
      · exact isAccess_accessEvents w ev te hte
      · exact ih.1 te hte
    · rw [splitPositions, if_neg hmem]
      refine ⟨by simp, fun es hes => ?_⟩
      rcases List.mem_cons.mp hes with rfl | hes
      · exact ⟨fetchEvent w ev, _, rfl, rfl, ih.1⟩
      · exact ih.2 es hes

theorem tracePosition_of_mem (w : ℕ) (events : List TraceEvent) :
    ∀ es ∈ positions w events, TracePosition es := by
  cases events with
  | nil => simp [positions]
  | cons ev stream =>
    intro es hes
    rcases List.mem_cons.mp hes with rfl | hes
    · exact ⟨fetchEvent w ev, _, rfl, rfl, (splitPositions_spec w stream).1⟩
    · exact (splitPositions_spec w stream).2 es hes

variable {ps : List (List TraceEventTuple)}

/-- **The next position of a trace.** -/
theorem hopStateAt_succ (hopts : opts.useCheckpoints = false) (hps : ∀ es ∈ ps, TracePosition es)
    (hk : k + 1 < 2 ^ 32) (hlen : k < ps.length) (hst : hopStateAt opts ps k = some st)
    (hchain : ChainUpTo opts (Occurs ps) k st) :
    ∃ st', hopStateAt opts ps (k + 1) = some st' ∧ Extends opts st (k + 1) ps[k] st'.result ∧
      ChainUpTo opts (Occurs ps) (k + 1) st' := by
  have hget : ps[k]? = some ps[k] := List.getElem?_eq_getElem hlen
  have hpos := hps ps[k] (List.getElem_mem _)
  obtain ⟨fetch, accesses, hes, hfetch, -⟩ := hpos
  obtain ⟨st', hst', hext, hchain'⟩ := processPosition_chainUpTo hchain hopts hk
    (fun te => occurs_succ hget) ⟨fetch, hes ▸ List.mem_cons_self, by simp [HopOptions.considers, hfetch]⟩
    (hps ps[k] (List.getElem_mem _)).plain
  refine ⟨st', ?_, hext, hchain'⟩
  rw [hopStateAt, hst, Option.bind_some, hget, Option.bind_some, hst']

/-- **The invariant holds behind every position.** -/
theorem hopStateAt_chainUpTo (opts : HopOptions) (hopts : opts.useCheckpoints = false)
    (hps : ∀ es ∈ ps, TracePosition es) (hk : k < 2 ^ 32) (hlen : k ≤ ps.length) :
    ∃ st, hopStateAt opts ps k = some st ∧ ChainUpTo opts (Occurs ps) k st := by
  induction k with
  | zero => exact ⟨{}, rfl, chainUpTo_zero⟩
  | succ k ih =>
    obtain ⟨st, hst, hchain⟩ := ih (by omega) (by omega)
    obtain ⟨st', hst', -, hchain'⟩ := hopStateAt_succ hopts hps hk hlen hst hchain
    exact ⟨st', hst', hchain'⟩

/-- The message for instruction offset `k`. -/
def hopMessage (ps : List (List TraceEventTuple)) (k : ℕ) : Option InjectionPointMessage :=
  (hopStateAt SmartHops.options ps k).bind fun st => convertToIPM st.result st.costs

/-- The event a hop of a message waits for. -/
def hopEvent (hop : ℕ × HopAccessType) : TraceEventTuple :=
  (hop.1, match hop.2 with | .execute => .none | .read => .read | .write => .write)

theorem mapM_convertHop {chain : List ResultTuple} (h : ∀ hop ∈ chain, Plain hop.1) :
    ∃ hops, chain.mapM convertHop = some hops ∧ hops.map hopEvent = chain.map Prod.fst := by
  induction chain with
  | nil => exact ⟨[], rfl, rfl⟩
  | cons hop chain ih =>
    obtain ⟨hops, hhops, hmap⟩ := ih fun hop' hhop' => h hop' (List.mem_cons_of_mem _ hhop')
    obtain ⟨⟨address, acc⟩, pos⟩ := hop
    have hplain := h _ List.mem_cons_self
    cases acc with
    | checkpoint => exact absurd rfl hplain.1
    | readOrWrite => exact absurd rfl hplain.2
    | none => exact ⟨(address, .execute) :: hops, by simp [convertHop, hhops], by simp [hmap, hopEvent]⟩
    | read => exact ⟨(address, .read) :: hops, by simp [convertHop, hhops], by simp [hmap, hopEvent]⟩
    | write => exact ⟨(address, .write) :: hops, by simp [convertHop, hhops], by simp [hmap, hopEvent]⟩

/-- The message for a chain without checkpoints: its hops, its target and its costs. -/
theorem convertToIPM_of_plain {chain : List ResultTuple} (costs : ℕ) (h : ∀ hop ∈ chain, Plain hop.1) :
    ∃ ip, convertToIPM chain costs = some ip ∧ ip.costs = some costs ∧ ip.checkpointId = none ∧
      ip.targetTracePosition = some (hopTarget 0 chain) ∧ ip.hops.map hopEvent = chain.map Prod.fst := by
  obtain ⟨hops, hhops, hmap⟩ := mapM_convertHop h
  refine ⟨{ costs := some costs, targetTracePosition := some (hopTarget 0 chain), hops }, ?_, rfl, rfl, rfl,
    hmap⟩
  have htarget : targetPosition chain = hopTarget 0 chain := by
    rw [targetPosition]
    cases hlast : chain.getLast? with
    | none =>
      rw [List.getLast?_eq_none_iff.mp hlast]
      rfl
    | some hop =>
      obtain ⟨front, rfl⟩ := List.getLast?_eq_some_iff.mp hlast
      simp [(h hop (by simp)).1]
  have hsplit : splitCheckpoint chain = (none, chain) := by
    cases chain with
    | nil => rfl
    | cons hop rest => rw [splitCheckpoint, if_neg (h hop List.mem_cons_self).1]
  rw [convertToIPM, htarget, hsplit, hhops]
  rfl

/-! ## SmartHops -/

namespace SmartHops

variable {w : ℕ} {sh : SmartHops}

/-- The calculator stands behind position `k` of the trace with positions `ps`. -/
structure At (w : ℕ) (ps : List (List TraceEventTuple)) (k : ℕ) (sh : SmartHops) : Prop where
  tracePos : sh.tracePos = k
  reader : sh.traceReader.At w k (ps.drop k)
  unlimited : sh.traceReader.maxNumInst = 0
  state : hopStateAt options ps k = some sh.state

theorem at_init (w : ℕ) (events : List TraceEvent) : (init events).At w (positions w events) 0 :=
  ⟨rfl, TraceReader.at_openTraceFile w events 0, rfl, rfl⟩

/-- **The main loop** advances the calculator to the requested position. -/
theorem advance_at (h : sh.At w ps k) (hps : ∀ es ∈ ps, TracePosition es) (hkp : k ≤ p)
    (hlen : p ≤ ps.length) (hp : p < 2 ^ 32) (fuel : ℕ) (hfuel : p - k ≤ fuel) :
    ∃ sh', advance w p fuel sh = some (true, sh') ∧ sh'.At w ps p := by
  induction fuel generalizing sh k with
  | zero =>
    obtain rfl : k = p := by omega
    refine ⟨sh, ?_, h⟩
    rw [advance, h.tracePos, if_neg (lt_irrefl k)]
  | succ fuel ih =>
    rw [advance, h.tracePos]
    by_cases hlt : k < p
    · rw [if_pos hlt]
      have hreader := h.reader
      rw [List.drop_eq_getElem_cons (by omega)] at hreader
      obtain ⟨r, hnext, hr, hmax⟩ := TraceReader.getNextTraceEvents_of_position hreader (by omega)
        (.inl h.unlimited) k sh.traceEvents
      rw [Nat.mod_eq_of_lt (by omega)] at hnext
      obtain ⟨st, hst, -⟩ := hopStateAt_chainUpTo options (k := k + 1) rfl hps (by omega)
        (by omega)
      have hprocess : processPosition options sh.state (k + 1) ps[k] = some st := by
        rw [hopStateAt, h.state, Option.bind_some, List.getElem?_eq_getElem (by omega),
          Option.bind_some] at hst
        exact hst
      simp only [hnext, hprocess, if_true, Option.bind_some]
      exact ih (k := k + 1) ⟨rfl, hr, hmax.trans h.unlimited, hst⟩ (by omega) (by omega)
    · obtain rfl : k = p := by omega
      rw [if_neg hlt]
      exact ⟨sh, rfl, h⟩

/-- **One call** for an offset that is not behind the current position: the message is that of the
offset, whatever the calls before were. -/
theorem calculateFollowingHop_at (h : sh.At w ps k) (hps : ∀ es ∈ ps, TracePosition es) (hkp : k ≤ p)
    (hlen : p ≤ ps.length) (hp : p < 2 ^ 32) :
    ∃ ip sh', calculateFollowingHop w sh p = some (some ip, sh') ∧ hopMessage ps p = some ip ∧
      sh'.At w ps p := by
  by_cases hzero : p = 0
  · obtain rfl : k = 0 := by omega
    subst hzero
    obtain hstate : {} = sh.state := Option.some.inj h.state
    refine ⟨_, sh, ?_, rfl, h⟩
    rw [calculateFollowingHop, if_pos rfl, ← hstate]
    obtain ⟨tracePos, reader, traceEvents, state⟩ := sh
    obtain rfl : {} = state := hstate
    rfl
  · obtain ⟨sh', hadv, hat⟩ := advance_at h hps hkp hlen hp p (by omega)
    obtain ⟨st, hst, hchain⟩ := hopStateAt_chainUpTo options rfl hps hp hlen
    obtain rfl : sh'.state = st := Option.some.inj (hat.state.symm.trans hst)
    obtain ⟨ip, hip, -⟩ := convertToIPM_of_plain sh'.state.costs fun hop hhop =>
      (hchain.events hop hhop).2
    refine ⟨ip, sh', ?_, ?_, hat⟩
    · rw [calculateFollowingHop, if_neg hzero, hadv]
      simp [hip]
    · rw [hopMessage, hat.state, Option.bind_some, hip]

/-- A sequence of calls that all return `true`: their messages, and the calculator after them. -/
def calculateHops (w : ℕ) (sh : SmartHops) : List ℕ → Option (List InjectionPointMessage × SmartHops)
  | [] => some ([], sh)
  | offset :: offsets =>
    match calculateFollowingHop w sh offset with
    | some (some ip, sh) => (calculateHops w sh offsets).map fun (ips, sh) => (ip :: ips, sh)
    | _ => none

/-- **A sequence of calls** with ascending offsets. -/
theorem calculateHops_at {offsets : List ℕ} (h : sh.At w ps k) (hps : ∀ es ∈ ps, TracePosition es)
    (hsorted : (k :: offsets).Pairwise (· ≤ ·))
    (hbound : ∀ offset ∈ offsets, offset ≤ ps.length ∧ offset < 2 ^ 32) :
    ∃ ips sh', calculateHops w sh offsets = some (ips, sh') ∧
      offsets.map (hopMessage ps) = ips.map some ∧ sh'.At w ps ((k :: offsets).getLast (by simp)) := by
  induction offsets generalizing sh k with
  | nil => exact ⟨[], sh, rfl, rfl, h⟩
  | cons offset offsets ih =>
    obtain ⟨hle, hsorted⟩ := List.pairwise_cons.mp hsorted
    obtain ⟨hlen, hlt⟩ := hbound offset List.mem_cons_self
    obtain ⟨ip, sh₁, hcall, hmsg, hat⟩ :=
      calculateFollowingHop_at h hps (hle offset List.mem_cons_self) hlen hlt
    obtain ⟨ips, sh₂, hcalls, hmsgs, hat₂⟩ := ih hat hsorted fun o ho =>
      hbound o (List.mem_cons_of_mem _ ho)
    refine ⟨ip :: ips, sh₂, ?_, ?_, ?_⟩
    · simp only [calculateHops, hcall, hcalls, Option.map_some]
    · rw [List.map_cons, List.map_cons, hmsg, hmsgs]
    · rw [List.getLast_cons (by simp)]
      exact hat₂

/-- **A sequence of calls** on a new calculator that ends with offset `p`: the last message is that of `p`. -/
theorem calculateHops_concat {events : List TraceEvent} {offsets : List ℕ}
    (hsorted : (offsets ++ [p]).Pairwise (· ≤ ·)) (hlen : p ≤ (positions w events).length)
    (hp : p < 2 ^ 32) :
    ∃ ips ip sh, calculateHops w (init events) (offsets ++ [p]) = some (ips, sh) ∧
      ips.getLast? = some ip ∧ hopMessage (positions w events) p = some ip ∧
      sh.At w (positions w events) p := by
  have hle : ∀ offset ∈ offsets ++ [p], offset ≤ p := by
    intro offset hoffset
    rcases List.mem_append.mp hoffset with hoffset | hoffset
    · exact (List.pairwise_append.mp hsorted).2.2 offset hoffset p (List.mem_singleton_self p)
    · exact (List.mem_singleton.mp hoffset).le
  obtain ⟨ips, sh, hcalls, hmsgs, hat⟩ := calculateHops_at (at_init w events) (tracePosition_of_mem w events)
    (List.pairwise_cons.mpr ⟨fun _ _ => Nat.zero_le _, hsorted⟩)
    (fun offset hoffset => ⟨(hle offset hoffset).trans hlen, (hle offset hoffset).trans_lt hp⟩)
  have hlast := congrArg List.getLast? hmsgs
  rw [List.map_append, List.map_singleton, List.getLast?_concat, List.getLast?_map] at hlast
  obtain ⟨ip, hip, heq⟩ := Option.map_eq_some_iff.mp hlast.symm
  exact ⟨ips, ip, sh, hcalls, hip, heq.symm, by simpa using hat⟩

end SmartHops

/-! ## SmartAlgorithm -/

theorem hopStateAt_none_of_le {n : ℕ} (h : hopStateAt opts ps k = none) (hle : k ≤ n) :
    hopStateAt opts ps n = none := by
  induction n, hle using Nat.le_induction with
  | base => exact h
  | succ n _ ih => rw [hopStateAt, ih, Option.bind_none]

/-- **The loop of the offline tool** emits the chain behind every position, as long as there is one. The last
position before the counter starts again is position 0 for it. -/
theorem allHops_getElem_eq {w i : ℕ} {r : TraceReader} (hr : r.At w k (ps.drop k))
    (hst : hopStateAt opts ps k = some st) (hlen : k + i < ps.length) (hle : k + i + 1 ≤ 2 ^ 32)
    (hmax : r.maxNumInst = 0 ∨ k + i < r.maxNumInst) (fuel : ℕ) (hfuel : i < fuel) (tracePos : ℕ)
    (traceEvents : List TraceEventTuple) :
    (allHops w opts fuel r tracePos traceEvents st).1[i]? =
      (hopStateAt opts ps (k + i)).bind fun st =>
        (processPosition opts st ((k + i + 1) % 2 ^ 32) ps[k + i]).map fun st' => (st'.result, st'.costs) := by
  induction fuel generalizing r st k i tracePos traceEvents with
  | zero => omega
  | succ fuel ih =>
    rw [List.drop_eq_getElem_cons (by omega)] at hr
    obtain ⟨r', hnext, hr', hmax'⟩ := TraceReader.getNextTraceEvents_of_position hr (by omega)
      (by omega) tracePos traceEvents
    simp only [allHops, hnext, if_true]
    cases i with
    | zero =>
      simp only [Nat.add_zero, hst, Option.bind_some]
      cases processPosition opts st ((k + 1) % 2 ^ 32) ps[k] with
      | none => rfl
      | some st' => rfl
    | succ i =>
      rw [Nat.mod_eq_of_lt (show k + 1 < 2 ^ 32 by omega)]
      have hsucc : hopStateAt opts ps (k + 1) = processPosition opts st (k + 1) ps[k] := by
        rw [hopStateAt, hst, Option.bind_some, List.getElem?_eq_getElem (by omega), Option.bind_some]
      cases hprocess : processPosition opts st (k + 1) ps[k] with
      | none =>
        rw [hprocess] at hsucc
        rw [hopStateAt_none_of_le hsucc (show k + 1 ≤ k + (i + 1) by omega)]
        simp
      | some st' =>
        rw [hprocess] at hsucc
        have hrest := ih hr' hsucc (show k + 1 + i < ps.length by omega) (by omega)
          (by rw [hmax']; omega) (by omega) (k + 1) ps[k]
        have hshift : k + 1 + i = k + (i + 1) := by omega
        simp only [hshift] at hrest
        simpa using hrest

theorem length_positions_le (w : ℕ) (events : List TraceEvent) :
    (positions w events).length ≤ events.length := by
  have hsplit : ∀ stream : List TraceEvent, (splitPositions w stream).2.length ≤ stream.length := by
    intro stream
    induction stream with
    | nil => exact le_rfl
    | cons ev stream ih =>
      rw [splitPositions]
      split <;> simp only [List.length_cons] <;> omega
  cases events with
  | nil => exact le_rfl
  | cons ev stream => exact Nat.succ_le_succ (hsplit stream)

/-- **The results of the offline tool** are the chains behind the positions, as long as there are some. -/
theorem calculateAllHops_getElem_eq {w numInst : ℕ} {events : List TraceEvent} {i : ℕ}
    (hlen : i < (positions w events).length) (hle : i + 1 ≤ 2 ^ 32) (hnum : numInst = 0 ∨ i < numInst) :
    (calculateAllHops w opts (.openTraceFile events numInst)).1[i]? =
      (hopStateAt opts (positions w events) i).bind fun st =>
        (processPosition opts st ((i + 1) % 2 ^ 32) (positions w events)[i]).map
          fun st' => (st'.result, st'.costs) := by
  have hevents := length_positions_le w events
  have hr : (TraceReader.openTraceFile events numInst).At w 0 ((positions w events).drop 0) :=
    TraceReader.at_openTraceFile w events numInst
  have hopen : hopStateAt opts (positions w events) 0 = some {} := rfl
  have hget := allHops_getElem_eq (i := i) hr hopen (by omega) (by omega)
    (by simp only [TraceReader.openTraceFile]; omega) (events.length + 2) (by omega) 0 []
  simp only [Nat.zero_add] at hget
  exact hget

theorem calculateAllHops_of_hopStateAt {w numInst : ℕ} {events : List TraceEvent} (hpos : 0 < p)
    (hlen : p ≤ (positions w events).length) (hp : p < 2 ^ 32) (hnum : numInst = 0 ∨ p ≤ numInst)
    (hst : hopStateAt opts (positions w events) p = some st) :
    (calculateAllHops w opts (.openTraceFile events numInst)).1[p - 1]? = some (st.result, st.costs) := by
  cases p with
  | zero => exact absurd hpos (lt_irrefl 0)
  | succ k =>
    rw [hopStateAt, List.getElem?_eq_getElem hlen] at hst
    obtain ⟨st', hst', hprocess⟩ := Option.bind_eq_some_iff.mp hst
    rw [Option.bind_some] at hprocess
    rw [Nat.add_sub_cancel, calculateAllHops_getElem_eq hlen hp.le hnum, hst', Option.bind_some,
      Nat.mod_eq_of_lt hp, hprocess, Option.map_some]

theorem calculateAllHops_getElem {w numInst : ℕ} {events : List TraceEvent} (hopts : opts.useCheckpoints = false)
    (hpos : 0 < p) (hlen : p ≤ (positions w events).length) (hp : p < 2 ^ 32)
    (hnum : numInst = 0 ∨ p ≤ numInst) :
    ∃ st, (calculateAllHops w opts (.openTraceFile events numInst)).1[p - 1]? = some (st.result, st.costs) ∧
      ChainUpTo opts (Occurs (positions w events)) p st := by
  obtain ⟨st, hst, hchain⟩ := hopStateAt_chainUpTo opts hopts (tracePosition_of_mem w events) hp hlen
  exact ⟨st, calculateAllHops_of_hopStateAt hpos hlen hp hnum hst, hchain⟩

/-! ## The result -/

/-- The chain `(e₁, p₁), …, (eₙ, pₙ)` leads to position `p` of the trace: `p₁` is the first position at
which `e₁` occurs, every `pᵢ₊₁` the first one strictly after `pᵢ` at which `eᵢ₊₁` occurs, and `pₙ = p`. -/
def LeadsTo (ps : List (List TraceEventTuple)) (chain : List ResultTuple) (p : ℕ) : Prop :=
  HopChain (Occurs ps) 0 chain ∧ (chain.getLast?.map Prod.snd) = some p

theorem ChainUpTo.leadsTo (h : ChainUpTo opts (Occurs ps) p st) (hp : 0 < p) :
    LeadsTo ps st.result p ∧ navigate ps 0 (st.result.map Prod.fst) = some p := by
  have hnav := h.chain.navigate
  rw [h.target] at hnav
  refine ⟨⟨h.chain, ?_⟩, hnav⟩
  have htarget := h.target
  cases hlast : st.result.getLast? with
  | none =>
    rw [List.getLast?_eq_none_iff.mp hlast] at htarget
    simp only [hopTarget] at htarget
    omega
  | some hop =>
    obtain ⟨front, hfront⟩ := List.getLast?_eq_some_iff.mp hlast
    rw [hfront, hopTarget_concat] at htarget
    rw [Option.map_some, htarget]

/-- **Hop chains lead to their position.** For every trace and every position `p` (a `trace_pos_t`):
after any ascending sequence of calls of `SmartHops::calculateFollowingHop` that ends with offset `p`,
and for any setting of weights and watchpoints of `SmartAlgorithm::calculateAllHops` with checkpoints
off, the chain for `p` leads to `p`, and waiting for its hops one after the other from the start of the
trace stops at `p`. -/
theorem hop_chain_correct (w : ℕ) (events : List TraceEvent) (p : ℕ) (hpos : 0 < p)
    (hlen : p ≤ (positions w events).length) (hp : p < 2 ^ 32) :
    (∀ offsets : List ℕ, (offsets ++ [p]).Pairwise (· ≤ ·) →
      ∃ ips sh, SmartHops.calculateHops w (SmartHops.init events) (offsets ++ [p]) = some (ips, sh) ∧
        LeadsTo (positions w events) sh.state.result p ∧
        navigate (positions w events) 0 (sh.state.result.map Prod.fst) = some p ∧
        ∃ ip ∈ ips.getLast?, navigate (positions w events) 0 (ip.hops.map hopEvent) = some p) ∧
    (∀ (opts : HopOptions) (numInst : ℕ), opts.useCheckpoints = false → (numInst = 0 ∨ p ≤ numInst) →
      ∃ chain costs,
        (calculateAllHops w opts (.openTraceFile events numInst)).1[p - 1]? = some (chain, costs) ∧
        LeadsTo (positions w events) chain p ∧
        navigate (positions w events) 0 (chain.map Prod.fst) = some p ∧
        (opts.useWatchpoints = false → ∀ hop ∈ chain, hop.1.2 = .none)) := by
  constructor
  · intro offsets hsorted
    obtain ⟨ips, ip, sh, hcalls, hip, hmsg, hat⟩ := SmartHops.calculateHops_concat hsorted hlen hp
    obtain ⟨st, hst, hchain⟩ :=
      hopStateAt_chainUpTo SmartHops.options rfl (tracePosition_of_mem w events) hp hlen
    obtain rfl : sh.state = st := Option.some.inj (hat.state.symm.trans hst)
    obtain ⟨hleads, hnav⟩ := hchain.leadsTo hpos
    -- the message has the events of the chain
    obtain ⟨ip', hip', -, -, -, hhops⟩ := convertToIPM_of_plain sh.state.costs fun hop hhop =>
      (hchain.events hop hhop).2
    rw [hopMessage, hst, Option.bind_some, hip'] at hmsg
    obtain rfl := Option.some.inj hmsg
    exact ⟨ips, sh, hcalls, hleads, hnav, ip', hip, by rw [hhops, hnav]⟩
  · intro opts numInst hopts hnum
    obtain ⟨st, hget, hchain⟩ := calculateAllHops_getElem hopts hpos hlen hp hnum
    obtain ⟨hleads, hnav⟩ := hchain.leadsTo hpos
    refine ⟨st.result, st.costs, hget, hleads, hnav, fun hwatch hop hhop => ?_⟩
    have hconsiders := (hchain.events hop hhop).1
    simpa [HopOptions.considers, hwatch] using hconsiders

/-- A loop body of two instructions, the second of which writes two bytes, executed twice; then a new
instruction. -/
def loopTrace : List TraceEvent :=
  let store : TraceEvent :=
    { ip := 20, memaddr := some 100, width := some 2, accesstype := some .write }
  [{ ip := 10 }, { ip := 20 }, store, { ip := 10 }, { ip := 20 }, store, { ip := 30 }]

theorem hop_chain_correct_loopTrace : 0 < 4 ∧ 4 ≤ (positions 32 loopTrace).length ∧ 4 < 2 ^ 32 ∧
    ∃ ips sh, SmartHops.calculateHops 32 (SmartHops.init loopTrace) [1, 4] = some (ips, sh) ∧
      LeadsTo (positions 32 loopTrace) sh.state.result 4 := by
  refine ⟨by decide, by decide, by decide, ?_⟩
  obtain ⟨ips, sh, hcalls, hleads, -⟩ :=
    (hop_chain_correct 32 loopTrace 4 (by decide) (by decide) (by decide)).1 [1] (by decide)
  exact ⟨ips, sh, hcalls, hleads⟩

/-- A new instruction behind `n` executions of another one. -/
def longTrace (n : ℕ) : List TraceEvent := List.replicate n { ip := 10 } ++ [{ ip := 20 }]

theorem positions_longTrace (n : ℕ) :
    positions 32 (longTrace n) = List.replicate n [(10, .none)] ++ [[(20, .none)]] := by
  have hinstructions : ∀ ev ∈ longTrace n, ev.hasMemaddr = false := by
    refine List.forall_mem_append.mpr ⟨fun ev hev => ?_, List.forall_mem_singleton.mpr rfl⟩
    rw [List.eq_of_mem_replicate hev]
    rfl
  rw [positions_of_instructions 32 hinstructions]
  simp [longTrace, fetchEvent]

/-- A new instruction at position `2 ^ 32` counts as position 0. -/
theorem calculateAllHops_longTrace {n : ℕ} (hn : n + 1 = 2 ^ 32) (hopts : opts.useCheckpoints = false) :
    (calculateAllHops 32 opts (.openTraceFile (longTrace n))).1[n]? = some ([((20, .none), 0)], costChange) := by
  have hlen : (positions 32 (longTrace n)).length = n + 1 := by
    rw [positions_longTrace, List.length_append, List.length_replicate, List.length_singleton]
  obtain ⟨st, hst, hchain⟩ := hopStateAt_chainUpTo opts hopts (tracePosition_of_mem 32 (longTrace n))
    (show n < 2 ^ 32 by omega) (by omega)
  have hconsiders : opts.considers (20, .none) = true := by simp [HopOptions.considers]
  -- it did not occur before
  have hnew : st.lastPositions (20, .none) = none := by
    cases hpos : st.lastPositions (20, .none) with
    | none => rfl
    | some pos =>
      obtain ⟨-, hle, hpositive, es, hes, hmem⟩ := (hchain.last _ hconsiders).occurs pos hpos
      rw [positions_longTrace, List.getElem?_append_left (by rw [List.length_replicate]; omega),
        List.getElem?_replicate, if_pos (by omega)] at hes
      rw [← Option.some.inj hes] at hmem
      simp at hmem
  have hlast : (positions 32 (longTrace n))[n] = [(20, .none)] := by simp [positions_longTrace]
  rw [calculateAllHops_getElem_eq (by omega) hn.le (.inl rfl), hst, Option.bind_some, hlast, hn, Nat.mod_self]
  simp [processPosition, considerEvent, hconsiders, hnew]

/-- **The counter starts again**: the chain for position `2 ^ 32` ends at position 0. -/
theorem last_position_wraps :
    4294967296 ≤ (positions 32 (longTrace 4294967295)).length ∧
      (calculateAllHops 32 SmartHops.options (.openTraceFile (longTrace 4294967295))).1[4294967295]? =
        some ([((20, .none), 0)], 1) ∧
      ¬ LeadsTo (positions 32 (longTrace 4294967295)) [((20, .none), 0)] 4294967296 := by
  refine ⟨?_, calculateAllHops_longTrace rfl rfl, fun hleads => ?_⟩
  · rw [positions_longTrace, List.length_append, List.length_replicate, List.length_singleton]
  · have hlast := hleads.2
    simp at hlast

end FailStar
