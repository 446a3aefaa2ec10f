import FailStar.Foundations.FirstMin
import FailStar.SmartHops.Navigation

/-! # Choosing the injection point of an equivalence class

`InjectionPointHops` is asked for one equivalence class after the other, ordered by their first
instruction. It keeps a window of hop chains, prunes its front, extends its back, and picks a chain of
minimal costs.

* **`parseFromInjectionInstr`** — the code: pruning, extension, choice.
* **`Window`** — what the results hold: the chains from `instr1` on, in front of which pruning leaves one
  chain of an older offset (**`olderOffset`**).
* **`prune_window`**, **`extend_window`** — how a call moves the window.
* **`Window.choice_iff`** — the exact condition on the costs under which the chosen injection point lies
  inside the class and is cheapest (**`Selects`**). The index of the choice does not account for the older
  chain, and the last instruction of a longer class is never looked at.
* **`cheapest_inside_iff`** — the same for whole sequences of calls. -/

namespace FailStar

/-- `InjectionPointHops` with its calculator initialized. -/
structure InjectionPointHops where
  /-- `m_sa`. -/
  sa : SmartHops
  /-- `m_curr_instr1`. -/
  currInstr1 : ℤ := -1
  /-- `m_curr_instr2`. -/
  currInstr2 : ℤ := -1
  /-- `m_results`. -/
  results : List InjectionPointMessage := []
  /-- `m_ip`. -/
  ip : InjectionPointMessage := {}

namespace InjectionPointHops

/-- A new object; `init()` opens the trace file with the given events. -/
def init (events : List TraceEvent) : InjectionPointHops := { sa := SmartHops.init events }

/-- The loop that looks for the last result older than `instr1`: its index, if there is one. The program
exits on a result without a target. -/
def deleteIterator (instr1 : ℕ) : List InjectionPointMessage → Option (Option ℕ)
  | [] => some none
  | m :: results =>
    m.targetTracePosition.bind fun target =>
      (deleteIterator instr1 results).map fun
        | some i => some (i + 1)
        | none => if target < instr1 then some 0 else none

/-- Clear results older than `instr1`, as chunk. -/
def prune (obj : InjectionPointHops) (instr1 : ℕ) : Option InjectionPointHops :=
  (deleteIterator instr1 obj.results).map fun
    | some i => { obj with results := obj.results.drop i, currInstr1 := instr1 }
    | none => obj

/-- Calculate next needed results. Every iteration increases `m_curr_instr2`, which starts at `-1`. -/
def extend (w instr1 instr2 : ℕ) : ℕ → InjectionPointHops → Option InjectionPointHops
  | fuel, obj =>
    if obj.currInstr2 < instr2 then
      match fuel with
      | 0 => none
      | fuel + 1 =>
        -- if `instr1` is behind the window, instructions are skipped
        let (currInstr1, newCurrInstr2) :=
          if obj.currInstr2 < instr1 then ((instr1 : ℤ), instr1)
          else (obj.currInstr1, (obj.currInstr2 + 1).toNat % 2 ^ 32)
        match obj.sa.calculateFollowingHop w newCurrInstr2 with
        | some (some m, sa) =>
          extend w instr1 instr2 fuel
            { obj with sa, currInstr1, currInstr2 := newCurrInstr2, results := obj.results ++ [m] }
        | _ => none
    else some obj

/-- One iteration of the search for the minimum: `min_cost_msg` and `min_costs`. The program exits on a
result without costs. -/
def chooseStep (best : Option InjectionPointMessage × ℕ) (m : InjectionPointMessage) :
    Option (Option InjectionPointMessage × ℕ) :=
  m.costs.map fun costs => if costs < best.2 then (some m, costs) else best

/-- Choose the minimum in `[search, search_end)`, or `*search` if this is empty. Iterators outside of
`m_results` and an unset `min_cost_msg` are undefined. -/
def chooseMinimum (results : List InjectionPointMessage) (search searchEnd : ℤ) :
    Option InjectionPointMessage :=
  if 0 ≤ search ∧ search ≤ searchEnd ∧ searchEnd ≤ results.length then
    if search = searchEnd then results[search.toNat]?
    else
      (((results.drop search.toNat).take (searchEnd - search).toNat).foldlM chooseStep
        (none, 2 ^ 32 - 1)).bind Prod.fst
  else none

/-- **`parseFromInjectionInstr(instr1, instr2)`.** -/
def parseFromInjectionInstr (w : ℕ) (obj : InjectionPointHops) (instr1 instr2 : ℕ) :
    Option InjectionPointHops :=
  ((obj.prune instr1).bind (extend w instr1 instr2 (instr2 + 1))).bind fun obj =>
    (chooseMinimum obj.results (instr1 - obj.currInstr1) (instr2 - obj.currInstr1)).map fun ip =>
      { obj with ip }

/-- A sequence of calls. -/
def parseAll (w : ℕ) (obj : InjectionPointHops) (calls : List (ℕ × ℕ)) : Option InjectionPointHops :=
  calls.foldlM (fun obj call => parseFromInjectionInstr w obj call.1 call.2) obj

/-! ## Messages and costs -/

variable {w : ℕ} {events : List TraceEvent} {older : Option ℕ} {a b k next : ℕ} {obj : InjectionPointHops}

/-- The message a new calculator delivers for an offset. -/
def messageAt (w : ℕ) (events : List TraceEvent) (k : ℕ) : InjectionPointMessage :=
  (((SmartHops.init events).calculateFollowingHop w k).bind Prod.fst).getD {}

/-- The costs of the chain `SmartHops` computes for an offset. -/
def costsAt (w : ℕ) (events : List TraceEvent) (k : ℕ) : ℕ := (messageAt w events k).costs.getD 0

theorem hopMessage_eq_messageAt (hlen : k ≤ (positions w events).length) (hk : k < 2 ^ 32) :
    hopMessage (positions w events) k = some (messageAt w events k) := by
  obtain ⟨ip, sh, hcalc, hmsg, -⟩ := SmartHops.calculateFollowingHop_at (SmartHops.at_init w events)
    (tracePosition_of_mem w events) (Nat.zero_le k) hlen hk
  rw [hmsg, messageAt, hcalc]
  rfl

theorem messageAt_spec (hlen : k ≤ (positions w events).length) (hk : k < 2 ^ 32) :
    (messageAt w events k).targetTracePosition = some k ∧
      (messageAt w events k).costs = some (costsAt w events k) := by
  have hmsg := hopMessage_eq_messageAt hlen hk
  obtain ⟨st, hst, hchain⟩ :=
    hopStateAt_chainUpTo SmartHops.options rfl (tracePosition_of_mem w events) hk hlen
  obtain ⟨ip, hip, hcosts, -, htarget, -⟩ := convertToIPM_of_plain st.costs fun hop hhop =>
    (hchain.events hop hhop).2
  rw [hopMessage, hst, Option.bind_some, hip, Option.some.injEq] at hmsg
  rw [costsAt, ← hmsg, hcosts, htarget, hchain.target]
  exact ⟨rfl, rfl⟩

/-- A calculator that stands at an earlier offset delivers the same message. -/
theorem calculateFollowingHop_messageAt {sh : SmartHops} {p : ℕ} (h : sh.At w (positions w events) k)
    (hkp : k ≤ p) (hlen : p ≤ (positions w events).length) (hp : p < 2 ^ 32) :
    ∃ sh', sh.calculateFollowingHop w p = some (some (messageAt w events p), sh') ∧
      sh'.At w (positions w events) p := by
  obtain ⟨ip, sh', hcalc, hmsg, hat⟩ :=
    SmartHops.calculateFollowingHop_at h (tracePosition_of_mem w events) hkp hlen hp
  obtain rfl : messageAt w events p = ip :=
    Option.some.inj ((hopMessage_eq_messageAt hlen hp).symm.trans hmsg)
  exact ⟨sh', hcalc, hat⟩

/-! ## Pruning -/

theorem deleteIterator_newer {newer : List InjectionPointMessage}
    (hnewer : ∀ m ∈ newer, ∃ t, m.targetTracePosition = some t ∧ a ≤ t) :
    deleteIterator a newer = some none := by
  induction newer with
  | nil => rfl
  | cons m newer ih =>
    obtain ⟨t, ht, hle⟩ := hnewer m List.mem_cons_self
    rw [deleteIterator, ht, Option.bind_some, ih fun m' hm' => hnewer m' (List.mem_cons_of_mem _ hm')]
    simp [Nat.not_lt.mpr hle]

theorem deleteIterator_append {older newer : List InjectionPointMessage}
    (holder : ∀ m ∈ older, ∃ t, m.targetTracePosition = some t ∧ t < a)
    (hnewer : ∀ m ∈ newer, ∃ t, m.targetTracePosition = some t ∧ a ≤ t) :
    deleteIterator a (older ++ newer) = some (if older = [] then none else some (older.length - 1)) := by
  induction older with
  | nil => rw [List.nil_append, if_pos rfl, deleteIterator_newer hnewer]
  | cons m older ih =>
    obtain ⟨t, ht, hlt⟩ := holder m List.mem_cons_self
    rw [List.cons_append, deleteIterator, ht, Option.bind_some,
      ih fun m' hm' => holder m' (List.mem_cons_of_mem _ hm')]
    by_cases hnil : older = []
    · simp [hnil, hlt]
    · have hpos := List.length_pos_iff.mpr hnil
      simp only [if_neg hnil, Option.map_some, List.cons_ne_nil, if_false, List.length_cons]
      congr 2
      omega

theorem drop_length_sub_one {α : Type*} {older newer : List α} (h : older ≠ []) :
    (older ++ newer).drop (older.length - 1) = older.getLast?.toList ++ newer := by
  obtain ⟨front, last, rfl⟩ : ∃ front last, older = front ++ [last] :=
    ⟨older.dropLast, older.getLast h, (List.dropLast_append_getLast h).symm⟩
  simp

/-! ## The window -/

/-- **What the results hold**, when the last call was for `instr1 = a` and the chains up to `next - 1` were
calculated: the chains from `a` on, behind the chain of at most one older offset. -/
structure Window (w : ℕ) (events : List TraceEvent) (older : Option ℕ) (a next : ℕ)
    (obj : InjectionPointHops) : Prop where
  bound : obj.currInstr2 + 1 = next
  base : next ≤ a ∨ obj.currInstr1 = a
  calculator : obj.sa.At w (positions w events) (next - 1)
  results : obj.results = (older.toList ++ List.range' a (next - a)).map (messageAt w events)
  older_lt : ∀ o ∈ older, o < a ∧ o < next
  len : next ≤ (positions w events).length + 1
  fits : next ≤ 2 ^ 32

theorem window_init (w : ℕ) (events : List TraceEvent) : Window w events none 0 0 (init events) :=
  ⟨rfl, .inl le_rfl, SmartHops.at_init w events, rfl, by simp, by omega, by omega⟩

/-- The offset pruning leaves in front of the window when it moves from `a` to `a'`. -/
def lastOlder (older : Option ℕ) (a next a' : ℕ) : Option ℕ :=
  if a < min next a' then some (min next a' - 1) else older

theorem getLast?_older (older : Option ℕ) (a next a' : ℕ) :
    (older.toList ++ List.range' a (min next a' - a)).getLast? = lastOlder older a next a' := by
  rw [lastOlder]
  by_cases h : a < min next a'
  · obtain ⟨n, hn⟩ : ∃ n, min next a' - a = n + 1 := ⟨min next a' - a - 1, by omega⟩
    rw [if_pos h, hn, List.range'_concat, ← List.append_assoc, List.getLast?_concat]
    congr 1
    omega
  · rw [if_neg h, show min next a' - a = 0 by omega]
    cases older <;> rfl

theorem range'_split {a' : ℕ} (next : ℕ) (ha : a ≤ a') :
    List.range' a (next - a) = List.range' a (min next a' - a) ++ List.range' a' (next - a') := by
  by_cases h : next ≤ a'
  · rw [min_eq_left h, Nat.sub_eq_zero_of_le h, List.range'_zero, List.append_nil]
  · have hstart : a' = a + (min next a' - a) := by omega
    have hlen : next - a = (min next a' - a) + (next - a') := by omega
    rw [hlen, ← List.range'_append_1, ← hstart]

/-- The results in front of `a'` are older, the others are not. -/
theorem Window.deleteIterator {a' : ℕ} (h : Window w events older a next obj) (ha : a ≤ a') :
    InjectionPointHops.deleteIterator a' obj.results =
      some (if older.toList ++ List.range' a (min next a' - a) = [] then none
        else some ((older.toList ++ List.range' a (min next a' - a)).length - 1)) := by
  have hlen := h.len
  have hfits := h.fits
  rw [h.results, range'_split next ha, ← List.append_assoc, List.map_append]
  rw [deleteIterator_append, List.length_map]
  · simp only [List.map_eq_nil_iff]
  · intro m hm
    obtain ⟨o, ho, rfl⟩ := List.mem_map.mp hm
    have hlt : o < next ∧ o < a' := by
      rcases List.mem_append.mp ho with ho | ho
      · have := h.older_lt o (Option.mem_toList.mp ho)
        omega
      · rw [List.mem_range'_1] at ho
        omega
    exact ⟨o, (messageAt_spec (by omega) (by omega)).1, hlt.2⟩
  · intro m hm
    obtain ⟨o, ho, rfl⟩ := List.mem_map.mp hm
    rw [List.mem_range'_1] at ho
    exact ⟨o, (messageAt_spec (by omega) (by omega)).1, by omega⟩

/-- **Pruning moves the front of the window**, but keeps the last older chain. -/
theorem prune_window {a' : ℕ} (h : Window w events older a next obj) (ha : a ≤ a') :
    ∃ obj', prune obj a' = some obj' ∧ Window w events (lastOlder older a next a') a' next obj' := by
  have hlt : ∀ o ∈ lastOlder older a next a', o < a' ∧ o < next := by
    intro o ho
    rw [lastOlder] at ho
    split at ho
    · obtain rfl : min next a' - 1 = o := Option.some.inj ho
      omega
    · have := h.older_lt o ho
      omega
  rw [prune, h.deleteIterator ha]
  by_cases hnil : older.toList ++ List.range' a (min next a' - a) = []
  · rw [if_pos hnil]
    refine ⟨obj, rfl, h.bound, ?_, h.calculator, ?_, hlt, h.len, h.fits⟩
    · -- nothing is older: the front does not move, or nothing was calculated behind it
      have hempty : min next a' - a = 0 := List.range'_eq_nil_iff.mp (List.append_eq_nil_iff.mp hnil).2
      rcases h.base with hbase | hbase
      · exact .inl (hbase.trans ha)
      · by_cases hnext : next ≤ a'
        · exact .inl hnext
        · exact .inr (by rw [hbase]; omega)
    · rw [← getLast?_older, h.results, range'_split next ha, ← List.append_assoc, hnil]
      rfl
  · rw [if_neg hnil]
    refine ⟨_, rfl, h.bound, .inr rfl, h.calculator, ?_, hlt, h.len, h.fits⟩
    simp only
    rw [h.results, ← List.map_drop, range'_split next ha, ← List.append_assoc, drop_length_sub_one hnil,
      getLast?_older]

/-- **Extending moves the end of the window.** A gap in front of the class is skipped. -/
theorem extend_window (h : Window w events older a next obj) (hab : a ≤ b)
    (hb : b ≤ (positions w events).length) (hb32 : b < 2 ^ 32) (fuel : ℕ) (hfuel : b + 1 - next ≤ fuel) :
    ∃ obj', extend w a b fuel obj = some obj' ∧ Window w events older a (max next (b + 1)) obj' := by
  have hbound := h.bound
  induction fuel generalizing next obj with
  | zero =>
    refine ⟨obj, ?_, by rwa [max_eq_left (by omega)]⟩
    rw [extend, if_neg (by omega)]
  | succ fuel ih =>
    rw [extend]
    by_cases hlt : obj.currInstr2 < b
    · rw [if_pos hlt]
      obtain ⟨sa, hcalc, hsa⟩ := calculateFollowingHop_messageAt h.calculator
        (p := max next a) (by omega) (by omega) (by omega)
      have hstep : (if obj.currInstr2 < a then ((a : ℤ), a)
          else (obj.currInstr1, (obj.currInstr2 + 1).toNat % 2 ^ 32)) = ((a : ℤ), max next a) := by
        by_cases ha : obj.currInstr2 < a
        · rw [if_pos ha, max_eq_right (by omega)]
        · rw [if_neg ha, h.base.resolve_left (by omega), max_eq_left (by omega), hbound, Int.toNat_natCast,
            Nat.mod_eq_of_lt (by omega)]
      simp only [hstep, hcalc]
      have hwindow : Window w events older a (max next a + 1)
          { obj with sa, currInstr1 := a, currInstr2 := ((max next a : ℕ) : ℤ),
                     results := obj.results ++ [messageAt w events (max next a)] } := by
        refine ⟨rfl, .inr rfl, hsa, ?_, fun o ho => ?_, by omega, by omega⟩
        · have hrange : List.range' a (max next a + 1 - a) = List.range' a (next - a) ++ [max next a] := by
            rw [show max next a + 1 - a = (next - a) + 1 by omega, List.range'_concat, one_mul,
              show a + (next - a) = max next a by omega]
          simp only [h.results, hrange, List.map_append, List.map_singleton, List.append_assoc]
        · have := h.older_lt o ho
          omega
      obtain ⟨obj', hobj', hw⟩ := ih hwindow (by omega) rfl
      exact ⟨obj', hobj', by rwa [show max next (b + 1) = max (max next a + 1) (b + 1) by omega]⟩
    · rw [if_neg hlt]
      exact ⟨obj, rfl, by rwa [max_eq_left (by omega)]⟩

/-! ## The choice -/

/-- **The search loop** finds the first minimum, if there are costs below the initial value. -/
theorem foldlM_chooseStep (limit : ℕ) {xs : List ℕ}
    (hxs : ∀ x ∈ xs, (messageAt w events x).costs = some (costsAt w events x)) :
    ∃ best, (xs.map (messageAt w events)).foldlM chooseStep (none, limit) = some best ∧
      ((best = (none, limit) ∧ ∀ x ∈ xs, limit ≤ costsAt w events x) ∨
        ∃ q, best = (some (messageAt w events q), costsAt w events q) ∧
          FirstMin (costsAt w events) limit xs q) := by
  induction xs using List.reverseRecOn with
  | nil => exact ⟨_, rfl, .inl ⟨rfl, by simp⟩⟩
  | append_singleton xs x ih =>
    obtain ⟨best, hfold, hbest⟩ := ih fun y hy => hxs y (List.mem_append_left _ hy)
    rw [List.map_append, List.foldlM_append, hfold, Option.bind_eq_bind, Option.bind_some, List.map_singleton,
      List.foldlM_cons, chooseStep, hxs x (by simp), Option.map_some]
    refine ⟨_, rfl, ?_⟩
    rcases hbest with ⟨rfl, hle⟩ | ⟨q, rfl, hmin⟩
    · by_cases hlt : costsAt w events x < limit
      · exact .inr ⟨x, if_pos hlt, firstMin_snoc hlt fun y hy => hlt.trans_le (hle y hy)⟩
      · refine .inl ⟨if_neg hlt, fun y hy => ?_⟩
        rcases List.mem_append.mp hy with hy | hy
        · exact hle y hy
        · rw [List.mem_singleton.mp hy]
          exact Nat.not_lt.mp hlt
    · by_cases hlt : costsAt w events x < costsAt w events q
      · exact .inr ⟨x, if_pos hlt, hmin.snoc_of_lt hlt⟩
      · exact .inr ⟨q, if_neg hlt, hmin.snoc (Nat.not_lt.mp hlt)⟩

/-- The offsets the search loop looks at for a class of several instructions. -/
def searched (older : Option ℕ) (a b : ℕ) : List ℕ :=
  (older.toList ++ List.range' a (b - a)).take (b - a)

theorem searched_none (a b : ℕ) : searched none a b = List.range' a (b - a) := by
  rw [searched, Option.toList_none, List.nil_append]
  exact List.take_of_length_le (by simp)

/-- Behind an older chain the loop ends two instructions before the end of the class. -/
theorem searched_some (o : ℕ) (hab : a < b) :
    searched (some o) a b = o :: List.range' a (b - 1 - a) := by
  obtain ⟨n, hn⟩ : ∃ n, b - a = n + 1 := ⟨b - a - 1, by omega⟩
  rw [searched, Option.toList_some, List.singleton_append, hn, List.take_succ_cons, List.range'_concat,
    List.take_left' (by simp), show b - 1 - a = n by omega]

theorem Window.take_results (h : Window w events older a next obj) (hb : b < next) :
    obj.results.take (b - a) = (searched older a b).map (messageAt w events) := by
  have hrange : List.range' a (next - a) = List.range' a (b - a) ++
      List.range' (a + (b - a)) (next - a - (b - a)) := by
    rw [List.range'_append_1]
    congr 1
    omega
  rw [h.results, ← List.map_take, searched, hrange, ← List.append_assoc,
    List.take_append_of_le_length (by simp)]

/-- **What the choice does** with a window that covers the class. -/
theorem Window.chooseMinimum (h : Window w events older a next obj) (hab : a ≤ b) (hb : b < next) :
    (a = b ∧ InjectionPointHops.chooseMinimum obj.results (a - obj.currInstr1) (b - obj.currInstr1) =
        some (messageAt w events (older.getD a))) ∨
      (a < b ∧ (∀ x ∈ searched older a b, 2 ^ 32 - 1 ≤ costsAt w events x) ∧
        InjectionPointHops.chooseMinimum obj.results (a - obj.currInstr1) (b - obj.currInstr1) = none) ∨
      (a < b ∧ ∃ q, FirstMin (costsAt w events) (2 ^ 32 - 1) (searched older a b) q ∧
        InjectionPointHops.chooseMinimum obj.results (a - obj.currInstr1) (b - obj.currInstr1) =
          some (messageAt w events q)) := by
  have hlen := h.len
  have hfits := h.fits
  have hbase := h.base.resolve_left (by omega)
  have hlength : obj.results.length = older.toList.length + (next - a) := by
    rw [h.results, List.length_map, List.length_append, List.length_range']
  rw [hbase, InjectionPointHops.chooseMinimum, if_pos (by omega), sub_self]
  rcases hab.eq_or_lt with rfl | hlt
  · refine .inl ⟨rfl, ?_⟩
    obtain ⟨n, hn⟩ : ∃ n, next - a = n + 1 := ⟨next - a - 1, by omega⟩
    rw [if_pos (sub_self _).symm, h.results, hn]
    cases older <;> rfl
  · have hxs : ∀ x ∈ searched older a b, (messageAt w events x).costs = some (costsAt w events x) := by
      intro x hx
      have hx : x < next := by
        rcases List.mem_append.mp (List.mem_of_mem_take hx) with hx | hx
        · exact (h.older_lt x (Option.mem_toList.mp hx)).2
        · rw [List.mem_range'_1] at hx
          omega
      exact (messageAt_spec (by omega) (by omega)).2
    obtain ⟨best, hfold, hbest⟩ := foldlM_chooseStep (2 ^ 32 - 1) hxs
    rw [if_neg (by omega), sub_zero, show ((b : ℤ) - a).toNat = b - a by omega, Int.toNat_zero, List.drop_zero,
      h.take_results hb, hfold, Option.bind_some]
    rcases hbest with ⟨rfl, hle⟩ | ⟨q, rfl, hmin⟩
    · exact .inr (.inl ⟨hlt, hle, rfl⟩)
    · exact .inr (.inr ⟨hlt, q, hmin, rfl⟩)

/-- **The property of an injection point**: inside the class, and cheapest among its offsets. -/
def CheapestInside (w : ℕ) (events : List TraceEvent) (a b : ℕ) (ip : InjectionPointMessage) : Prop :=
  ∃ q costs, ip.targetTracePosition = some q ∧ ip.costs = some costs ∧ a ≤ q ∧ q ≤ b ∧
    ∀ r, a ≤ r → r ≤ b → costs ≤ costsAt w events r

/-- The chosen chain is right, when the window starts with `older`. Without an older chain, a cheapest
offset has to be in front of the last instruction of the class. With an older chain it has to be in front
of the last two, and strictly cheaper than the older chain. -/
def Selects (costs : ℕ → ℕ) (older : Option ℕ) (a b : ℕ) : Prop :=
  match older with
  | none => a = b ∨ ∃ q, a ≤ q ∧ q + 1 ≤ b ∧ costs q < 2 ^ 32 - 1 ∧ ∀ r, a ≤ r → r ≤ b → costs q ≤ costs r
  | some o => ∃ q, a ≤ q ∧ q + 2 ≤ b ∧ costs q < costs o ∧ costs q < 2 ^ 32 - 1 ∧
      ∀ r, a ≤ r → r ≤ b → costs q ≤ costs r

theorem cheapestInside_messageAt {q : ℕ} (hlen : q ≤ (positions w events).length) (hq : q < 2 ^ 32) :
    CheapestInside w events a b (messageAt w events q) ↔
      a ≤ q ∧ q ≤ b ∧ ∀ r, a ≤ r → r ≤ b → costsAt w events q ≤ costsAt w events r := by
  obtain ⟨htarget, hcosts⟩ := messageAt_spec hlen hq
  simp only [CheapestInside, htarget, hcosts, Option.some.injEq, exists_and_left, exists_eq_left']

/-- The first minimum of what is searched is right iff a minimum of the class is searched and beats the
older chain. -/
theorem selects_of_firstMin {costs : ℕ → ℕ} {q : ℕ} (holder : ∀ o ∈ older, o < a) (hlt : a < b)
    (hmin : FirstMin costs (2 ^ 32 - 1) (searched older a b) q) :
    (a ≤ q ∧ q ≤ b ∧ ∀ r, a ≤ r → r ≤ b → costs q ≤ costs r) ↔ Selects costs older a b := by
  cases older with
  | none =>
    rw [searched_none] at hmin
    have hmem := List.mem_range'_1.mp hmin.mem
    constructor
    · rintro ⟨hq, -, hall⟩
      exact .inr ⟨q, hq, by omega, hmin.lt_limit, hall⟩
    · rintro (heq | ⟨q', hq', hq'b, -, hall⟩)
      · omega
      · have hle := hmin.le (List.mem_range'_1.mpr ⟨hq', by omega⟩)
        exact ⟨by omega, by omega, fun r har hrb => hle.trans (hall r har hrb)⟩
  | some o =>
    rw [searched_some o hlt] at hmin
    have hoa := holder o rfl
    constructor
    · rintro ⟨hq, -, hall⟩
      have hne : q ≠ o := by omega
      have hmem := List.mem_range'_1.mp ((List.mem_cons.mp hmin.mem).resolve_left hne)
      exact ⟨q, hq, by omega, hmin.lt_head hne, hmin.lt_limit, hall⟩
    · rintro ⟨q', hq', hq'b, hlto, -, hall⟩
      have hle := hmin.le (List.mem_cons_of_mem _ (List.mem_range'_1.mpr ⟨hq', by omega⟩))
      have hne : q ≠ o := by
        rintro rfl
        omega
      have hmem := List.mem_range'_1.mp ((List.mem_cons.mp hmin.mem).resolve_left hne)
      exact ⟨by omega, by omega, fun r har hrb => hle.trans (hall r har hrb)⟩

/-- If nothing that is searched is below the limit, no choice would have been right. -/
theorem not_selects_of_limit_le {costs : ℕ → ℕ} (hlt : a < b)
    (hle : ∀ x ∈ searched older a b, 2 ^ 32 - 1 ≤ costs x) : ¬ Selects costs older a b := by
  cases older with
  | none =>
    rw [searched_none] at hle
    rintro (heq | ⟨q, hq, hqb, hcosts, -⟩)
    · omega
    · have := hle q (List.mem_range'_1.mpr ⟨hq, by omega⟩)
      omega
  | some o =>
    rw [searched_some o hlt] at hle
    rintro ⟨q, hq, hqb, -, hcosts, -⟩
    have := hle q (List.mem_cons_of_mem _ (List.mem_range'_1.mpr ⟨hq, by omega⟩))
    omega

/-- A class of one instruction is served right iff there is no older chain. -/
theorem selects_self {costs : ℕ → ℕ} (holder : ∀ o ∈ older, o < a) :
    (a ≤ older.getD a ∧ older.getD a ≤ a ∧ ∀ r, a ≤ r → r ≤ a → costs (older.getD a) ≤ costs r) ↔
      Selects costs older a a := by
  cases older with
  | none =>
    refine iff_of_true ⟨le_rfl, le_rfl, fun r har hra => ?_⟩ (.inl rfl)
    rw [Option.getD_none, le_antisymm har hra]
  | some o =>
    have hoa := holder o rfl
    refine iff_of_false (fun h => ?_) fun h => ?_
    · rw [Option.getD_some] at h
      omega
    · obtain ⟨q, hq, hqa, -⟩ := h
      omega

/-- **The choice is right iff `Selects`.** -/
theorem Window.choice_iff (h : Window w events older a next obj) (hab : a ≤ b) (hb : b < next) :
    (∃ ip, InjectionPointHops.chooseMinimum obj.results (a - obj.currInstr1) (b - obj.currInstr1) = some ip ∧
      CheapestInside w events a b ip) ↔ Selects (costsAt w events) older a b := by
  have hlen := h.len
  have hfits := h.fits
  have holder : ∀ o ∈ older, o < a := fun o ho => (h.older_lt o ho).1
  rcases h.chooseMinimum hab hb with ⟨rfl, hchoice⟩ | ⟨hlt, hle, hchoice⟩ | ⟨hlt, q, hmin, hchoice⟩
  · have hhead : older.getD a < next := by
      cases older with
      | none => exact hb
      | some o => exact (h.older_lt o rfl).2
    simp only [hchoice, Option.some.injEq, exists_eq_left']
    rw [cheapestInside_messageAt (by omega) (by omega), selects_self holder]
  · simp only [hchoice, reduceCtorEq, false_and, exists_false, false_iff]
    exact not_selects_of_limit_le hlt hle
  · have hq : q < next := by
      rcases List.mem_append.mp (List.mem_of_mem_take hmin.mem) with hq | hq
      · exact (h.older_lt q (Option.mem_toList.mp hq)).2
      · rw [List.mem_range'_1] at hq
        omega
    simp only [hchoice, Option.some.injEq, exists_eq_left']
    rw [cheapestInside_messageAt (by omega) (by omega), selects_of_firstMin holder hlt hmin]

/-! ## Sequences of calls -/

variable {calls : List (ℕ × ℕ)} {a' : ℕ}

/-- The greatest offset in front of `a` that lies in one of the classes: its chain is what pruning leaves
in front of the window. -/
def olderOffset (calls : List (ℕ × ℕ)) (a : ℕ) : Option ℕ :=
  ((calls.filter fun call => call.1 < a).map fun call => min call.2 (a - 1)).max?

theorem olderOffset_eq_some {o : ℕ} (hmem : ∃ call ∈ calls, call.1 < a ∧ min call.2 (a - 1) = o)
    (hle : ∀ call ∈ calls, min call.2 (a - 1) ≤ o) : olderOffset calls a = some o := by
  obtain ⟨call, hcall, hlt, heq⟩ := hmem
  refine List.max?_eq_some_iff.mpr ⟨?_, fun x hx => ?_⟩
  · exact List.mem_map.mpr ⟨call, List.mem_filter.mpr ⟨hcall, decide_eq_true hlt⟩, heq⟩
  · obtain ⟨call', hcall', rfl⟩ := List.mem_map.mp hx
    exact hle call' (List.mem_filter.mp hcall').1

/-- A class that starts at `a` has no offset in front of `a`. -/
theorem olderOffset_snoc (calls : List (ℕ × ℕ)) (a b : ℕ) :
    olderOffset (calls ++ [(a, b)]) a = olderOffset calls a := by
  rw [olderOffset, List.filter_append, List.filter_singleton]
  simp [olderOffset]

/-- The window behind a sequence of calls. -/
structure History (w : ℕ) (events : List TraceEvent) (calls : List (ℕ × ℕ)) (a next : ℕ)
    (obj : InjectionPointHops) : Prop extends Window w events (olderOffset calls a) a next obj where
  classes : ∀ call ∈ calls, call.1 ≤ a ∧ call.1 ≤ call.2 ∧ call.2 < next
  first : a = 0 ∨ ∃ call ∈ calls, call.1 = a
  last : next = 0 ∨ ∃ call ∈ calls, call.2 + 1 = next

theorem history_init (w : ℕ) (events : List TraceEvent) : History w events [] 0 0 (init events) :=
  ⟨window_init w events, by simp, .inl rfl, .inl rfl⟩

/-- Pruning leaves the older offset of the calls. -/
theorem History.lastOlder (h : History w events calls a next obj) (ha : a ≤ a') :
    InjectionPointHops.lastOlder (olderOffset calls a) a next a' = olderOffset calls a' := by
  rw [InjectionPointHops.lastOlder]
  by_cases hlt : a < min next a'
  · rw [if_pos hlt]
    obtain ⟨call, hcall, hnext⟩ := h.last.resolve_left (by omega)
    have hclass := h.classes call hcall
    refine (olderOffset_eq_some ⟨call, hcall, by omega, by omega⟩ fun call' hcall' => ?_).symm
    have := h.classes call' hcall'
    omega
  · rw [if_neg hlt]
    by_cases heq : a = a'
    · rw [heq]
    · -- the window is empty although its front is behind `0`: there was no call
      have hnil : calls = [] := by
        refine List.eq_nil_iff_forall_not_mem.mpr fun call hcall => ?_
        have hclass := h.classes call hcall
        rcases h.first with hzero | ⟨call', hcall', hfirst⟩
        · omega
        · have := h.classes call' hcall'
          omega
      rw [hnil]
      rfl

/-- **What a call does**: the window moves to the class, and the choice is made in it. -/
theorem History.parse (h : History w events calls a next obj) (ha : a ≤ a') (hab : a' ≤ b)
    (hb : b ≤ (positions w events).length) (hb32 : b < 2 ^ 32) :
    ∃ obj', Window w events (olderOffset calls a') a' (max next (b + 1)) obj' ∧
      parseFromInjectionInstr w obj a' b =
        (chooseMinimum obj'.results (a' - obj'.currInstr1) (b - obj'.currInstr1)).map
          fun ip => { obj' with ip } := by
  obtain ⟨obj₁, hprune, hwindow₁⟩ := prune_window h.toWindow ha
  rw [h.lastOlder ha] at hwindow₁
  obtain ⟨obj₂, hextend, hwindow₂⟩ := extend_window hwindow₁ hab hb hb32 (b + 1) (by omega)
  refine ⟨obj₂, hwindow₂, ?_⟩
  rw [parseFromInjectionInstr, hprune, Option.bind_some, hextend, Option.bind_some]

theorem History.snoc {obj' : InjectionPointHops} (h : History w events calls a next obj) (ha : a ≤ a')
    (hab : a' ≤ b) (hb : b ≤ (positions w events).length) (hb32 : b < 2 ^ 32)
    (hparse : parseFromInjectionInstr w obj a' b = some obj') :
    History w events (calls ++ [(a', b)]) a' (max next (b + 1)) obj' := by
  obtain ⟨obj₁, hw, heq⟩ := h.parse ha hab hb hb32
  obtain ⟨ip, -, rfl⟩ := Option.map_eq_some_iff.mp (heq.symm.trans hparse)
  refine { toWindow := ?_, classes := fun call hcall => ?_, first := ?_, last := ?_ }
  · rw [olderOffset_snoc]
    exact ⟨hw.bound, hw.base, hw.calculator, hw.results, hw.older_lt, hw.len, hw.fits⟩
  · rcases List.mem_append.mp hcall with hcall | hcall
    · have := h.classes call hcall
      omega
    · obtain rfl := List.mem_singleton.mp hcall
      exact ⟨le_rfl, hab, by omega⟩
  · exact .inr ⟨(a', b), by simp, rfl⟩
  · by_cases hnext : next ≤ b + 1
    · exact .inr ⟨(a', b), by simp, by simp [hnext]⟩
    · obtain ⟨call, hcall, heq⟩ := h.last.resolve_left (by omega)
      exact .inr ⟨call, List.mem_append_left _ hcall, by omega⟩

/-- **One call**: the injection point is inside the class and cheapest iff `Selects`. -/
theorem History.parse_iff (h : History w events calls a next obj) (ha : a ≤ a') (hab : a' ≤ b)
    (hb : b ≤ (positions w events).length) (hb32 : b < 2 ^ 32) :
    (∃ obj', parseFromInjectionInstr w obj a' b = some obj' ∧ CheapestInside w events a' b obj'.ip) ↔
      Selects (costsAt w events) (olderOffset calls a') a' b := by
  obtain ⟨obj₁, hw, heq⟩ := h.parse ha hab hb hb32
  rw [← hw.choice_iff hab (by omega), heq]
  constructor
  · rintro ⟨obj', hobj', hip⟩
    obtain ⟨ip, hchoice, rfl⟩ := Option.map_eq_some_iff.mp hobj'
    exact ⟨ip, hchoice, hip⟩
  · rintro ⟨ip, hchoice, hip⟩
    exact ⟨_, by rw [hchoice, Option.map_some], hip⟩

/-- The calls `run_variant` makes: `ORDER BY instr1`, and every class inside the trace. -/
structure Ordered (n : ℕ) (calls : List (ℕ × ℕ)) : Prop where
  sorted : calls.Pairwise fun c d => c.1 ≤ d.1
  inside : ∀ call ∈ calls, call.1 ≤ call.2 ∧ call.2 ≤ n ∧ call.2 < 2 ^ 32

theorem parseAll_snoc (obj : InjectionPointHops) (calls : List (ℕ × ℕ)) (call : ℕ × ℕ) :
    parseAll w obj (calls ++ [call]) =
      (parseAll w obj calls).bind fun obj => parseFromInjectionInstr w obj call.1 call.2 := by
  rw [parseAll, parseAll, List.foldlM_append, Option.bind_eq_bind]
  simp

theorem Ordered.of_isPrefix {n : ℕ} {front : List (ℕ × ℕ)} (h : Ordered n calls) (hfront : front <+: calls) :
    Ordered n front :=
  ⟨h.sorted.sublist hfront.sublist, fun call hcall => h.inside call (hfront.subset hcall)⟩

/-- The next class does not start in front of the window. -/
theorem History.le_next {n : ℕ} {call : ℕ × ℕ} (h : History w events calls a next obj)
    (hcalls : Ordered n (calls ++ [call])) : a ≤ call.1 := by
  rcases h.first with rfl | ⟨call', hcall', rfl⟩
  · exact Nat.zero_le _
  · exact (List.pairwise_append.mp hcalls.sorted).2.2 call' hcall' call (by simp)

/-- **The window behind every run.** -/
theorem history_of_parseAll (hcalls : Ordered (positions w events).length calls)
    (hrun : parseAll w (init events) calls = some obj) : ∃ a next, History w events calls a next obj := by
  induction calls using List.reverseRecOn generalizing obj with
  | nil =>
    obtain rfl : init events = obj := Option.some.inj hrun
    exact ⟨0, 0, history_init w events⟩
  | append_singleton calls call ih =>
    rw [parseAll_snoc] at hrun
    obtain ⟨obj₁, hrun₁, hparse⟩ := Option.bind_eq_some_iff.mp hrun
    obtain ⟨a, next, h⟩ := ih (hcalls.of_isPrefix ⟨[call], rfl⟩) hrun₁
    obtain ⟨hab, hb, hb32⟩ := hcalls.inside call (by simp)
    exact ⟨_, _, h.snoc (h.le_next hcalls) hab hb hb32 hparse⟩

/-- **One call behind any run.** -/
theorem parse_iff {front : List (ℕ × ℕ)} {call : ℕ × ℕ}
    (hcalls : Ordered (positions w events).length (front ++ [call]))
    (hrun : parseAll w (init events) front = some obj) :
    (∃ obj', parseFromInjectionInstr w obj call.1 call.2 = some obj' ∧
        CheapestInside w events call.1 call.2 obj'.ip) ↔
      Selects (costsAt w events) (olderOffset front call.1) call.1 call.2 := by
  obtain ⟨a, next, h⟩ := history_of_parseAll (hcalls.of_isPrefix ⟨[call], rfl⟩) hrun
  obtain ⟨hab, hb, hb32⟩ := hcalls.inside call (by simp)
  exact h.parse_iff (h.le_next hcalls) hab hb hb32

/-- A sequence of calls that all meet the condition is never stopped. -/
theorem parseAll_of_selects (hcalls : Ordered (positions w events).length calls)
    (hselects : ∀ front call, front ++ [call] <+: calls →
      Selects (costsAt w events) (olderOffset front call.1) call.1 call.2) :
    ∃ obj, parseAll w (init events) calls = some obj := by
  induction calls using List.reverseRecOn with
  | nil => exact ⟨_, rfl⟩
  | append_singleton calls call ih =>
    have hfront : calls <+: calls ++ [call] := ⟨[call], rfl⟩
    obtain ⟨obj, hrun⟩ := ih (hcalls.of_isPrefix hfront) fun front call' hfront' =>
      hselects front call' (hfront'.trans hfront)
    obtain ⟨obj', hparse, -⟩ := (parse_iff hcalls hrun).mpr (hselects calls call (List.prefix_rfl))
    exact ⟨obj', by rw [parseAll_snoc, hrun, Option.bind_some, hparse]⟩

/-- **The injection points of a sequence of calls.** After each call the selected injection point lies
inside its class and is cheapest there iff each call meets `Selects`, for the older chain that the calls in
front of it have left. -/
theorem cheapest_inside_iff (w : ℕ) (events : List TraceEvent) (calls : List (ℕ × ℕ))
    (hcalls : Ordered (positions w events).length calls) :
    (∀ front call, front ++ [call] <+: calls →
      ∃ obj, parseAll w (init events) (front ++ [call]) = some obj ∧
        CheapestInside w events call.1 call.2 obj.ip) ↔
      ∀ front call, front ++ [call] <+: calls →
        Selects (costsAt w events) (olderOffset front call.1) call.1 call.2 := by
  constructor
  · intro h front call hfront
    obtain ⟨obj, hrun, hip⟩ := h front call hfront
    rw [parseAll_snoc] at hrun
    obtain ⟨obj₁, hrun₁, hparse⟩ := Option.bind_eq_some_iff.mp hrun
    exact (parse_iff (hcalls.of_isPrefix hfront) hrun₁).mp ⟨obj, hparse, hip⟩
  · intro h front call hfront
    have hbefore : front <+: calls := List.IsPrefix.trans ⟨[call], rfl⟩ hfront
    obtain ⟨obj₁, hrun₁⟩ := parseAll_of_selects (hcalls.of_isPrefix hbefore) fun front' call' hfront' =>
      h front' call' (hfront'.trans hbefore)
    obtain ⟨obj, hparse, hip⟩ := (parse_iff (hcalls.of_isPrefix hfront) hrun₁).mpr (h front call hfront)
    exact ⟨obj, by rw [parseAll_snoc, hrun₁, Option.bind_some, hparse], hip⟩

/-- A loop of one instruction, and two instructions behind it. -/
def idleTrace : List TraceEvent :=
  [{ ip := 10 }, { ip := 10 }, { ip := 10 }, { ip := 20 }, { ip := 30 }, { ip := 10 }]

theorem costsAt_idleTrace : (List.range 7).map (costsAt 32 idleTrace) = [0, 1, 3, 5, 1, 1, 2] := by
  decide +kernel

/-- Two overlapping classes: the older chain, to offset `2`, is dearer than the chain to offset `4`. -/
theorem cheapest_inside_iff_idleTrace :
    Ordered (positions 32 idleTrace).length [(1, 3), (3, 6)] ∧
      ∃ obj, parseAll 32 (init idleTrace) [(1, 3), (3, 6)] = some obj ∧
        CheapestInside 32 idleTrace 3 6 obj.ip := by
  have hcalls : Ordered (positions 32 idleTrace).length [(1, 3), (3, 6)] := ⟨by decide, by decide⟩
  have hcosts := costsAt_idleTrace
  simp only [List.range_succ, List.range_zero, List.nil_append, List.cons_append, List.map_cons, List.map_nil,
    List.cons.injEq, and_true] at hcosts
  obtain ⟨-, h1, h2, h3, h4, h5, h6⟩ := hcosts
  refine ⟨hcalls, (cheapest_inside_iff 32 idleTrace _ hcalls).mpr ?_ [(1, 3)] (3, 6) ⟨[], rfl⟩⟩
  rintro front call ⟨rest, heq⟩
  rcases front with _ | ⟨first, front⟩
  · obtain rfl : call = (1, 3) := (List.cons.inj heq).1
    refine .inr ⟨1, le_rfl, by decide, by omega, fun r hr1 hr3 => ?_⟩
    interval_cases r <;> omega
  · obtain ⟨rfl, htail⟩ := List.cons.inj heq
    rcases front with _ | ⟨second, front⟩
    · obtain rfl : call = (3, 6) := (List.cons.inj htail).1
      refine ⟨4, by decide, by decide, ?_, by omega, fun r hr3 hr6 => ?_⟩
      · change costsAt 32 idleTrace 4 < costsAt 32 idleTrace 2
        omega
      · interval_cases r <;> omega
    · simp at htail

/-- **The older chain is selected**: the second of two classes of one instruction gets the chain of the
first. -/
theorem second_class_gets_first_chain :
    Ordered (positions 32 idleTrace).length [(1, 1), (2, 2)] ∧
      ∃ obj, parseAll 32 (init idleTrace) [(1, 1), (2, 2)] = some obj ∧
        obj.ip.targetTracePosition = some 1 ∧ ¬ CheapestInside 32 idleTrace 2 2 obj.ip := by
  have hrun : (parseAll 32 (init idleTrace) [(1, 1), (2, 2)]).map (fun obj => obj.ip.targetTracePosition) =
      some (some 1) := by decide +kernel
  obtain ⟨obj, hobj, htarget⟩ := Option.map_eq_some_iff.mp hrun
  refine ⟨⟨by decide, by decide⟩, obj, hobj, htarget, ?_⟩
  rintro ⟨q, costs, hq, -, hle, -⟩
  obtain rfl : 1 = q := Option.some.inj (htarget.symm.trans hq)
  omega

end InjectionPointHops

end FailStar
