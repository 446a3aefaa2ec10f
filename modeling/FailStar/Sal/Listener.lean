import FailStar.Trace.Event

/-! # Listeners on a stream of simulator events

The simulator back end runs the guest and reports a breakpoint event in front of every instruction and a
memory access event for every access of the instruction. An experiment adds a listener and resumes the
simulator until the listener fires.

* **`SimEvent`** — the events; **`Listener.isMatching`** — the two kinds of listeners.
* **`Replay`** — where the simulator stands; **`Replay.resume`** — resuming it with a listener.
* **`FiresIn`** — an event of an instruction matches a listener. A listener stops no later than there
  (`FiresIn.instr_le`), and what fires later still does so afterwards (`FiresIn.after`).
* **`breakpoints`** — the instructions of a stream; **`resume_counter`** — counting them. -/

namespace FailStar

/-- An event of the simulator back end, with the time it occurs at. -/
inductive SimEvent
  /-- `onBreakpoint`: the instruction at `ip` is about to be executed. -/
  | breakpoint (time ip : ℕ)
  /-- `onMemoryAccess`: the instruction at `ip` accesses `width` bytes at `addr`. -/
  | memoryAccess (time ip addr width : ℕ) (accesstype : AccessType)
  deriving DecidableEq, Repr

/-- The number of the current dynamic instruction behind an event. -/
def SimEvent.instrAfter (instr : ℕ) : SimEvent → ℕ
  | .breakpoint _ _ => instr + 1
  | .memoryAccess _ _ _ _ _ => instr

/-- The addresses of the event are addresses of `w` bits. -/
def SimEvent.Fits (w : ℕ) : SimEvent → Prop
  | .breakpoint _ ip => ip < 2 ^ w
  | .memoryAccess _ ip addr _ _ => ip < 2 ^ w ∧ addr < 2 ^ w

instance (w : ℕ) : (ev : SimEvent) → Decidable (ev.Fits w)
  | .breakpoint _ ip => inferInstanceAs (Decidable (ip < 2 ^ w))
  | .memoryAccess _ ip addr _ _ => inferInstanceAs (Decidable (ip < 2 ^ w ∧ addr < 2 ^ w))

/-- The event is not an access that touches the end of the address space. -/
def SimEvent.Inside (w : ℕ) : SimEvent → Prop
  | .breakpoint _ _ => True
  | .memoryAccess _ _ addr width _ => addr + width < 2 ^ w

/-- `ANY_ADDR`, the address wildcard: `(address_t)-1`. -/
def anyAddr (w : ℕ) : ℕ := 2 ^ w - 1

/-- A listener of an experiment. -/
inductive Listener
  /-- `BPSingleListener(address)`, for any address space and CPU. -/
  | bpSingle (watchInstrPtr : ℕ)
  /-- `MemAccessListener(address, type)`, for one byte and any CPU. -/
  | memAccess (watchAddr : ℕ) (watchType : AccessType)
  deriving DecidableEq, Repr

/-- A breakpoint at `watch` matches an instruction at `ip`. -/
def bpMatches (w watch ip : ℕ) : Bool := decide (watch = anyAddr w ∨ watch = ip)

/-- `isMatching`. The sums of an address and a `size_t` are computed in the wider one of the two types. -/
def Listener.isMatching (w : ℕ) : Listener → SimEvent → Bool
  | .bpSingle watch, .breakpoint _ ip => bpMatches w watch ip
  | .memAccess watch type, .memoryAccess _ _ addr width accesstype =>
    decide (type = accesstype) && !(decide (watch ≠ anyAddr w) &&
      (decide ((addr + width) % 2 ^ max w 64 ≤ watch) || decide ((watch + 1) % 2 ^ max w 64 ≤ addr)))
  | _, _ => false

/-- Where the simulator stands: the number of the current dynamic instruction, and the events that are still
to come. -/
structure Replay where
  instr : ℕ
  stream : List SimEvent
  deriving DecidableEq, Repr

/-- **Resume the simulator with a listener**, until its counter reaches zero. A second listener signals an
error; it was added first and fires first. -/
def Replay.resume (w : ℕ) (error : Option Listener) (listener : Listener) :
    ℕ → ℕ → List SimEvent → Option Replay
  | _, _, [] => none
  | counter, instr, ev :: stream =>
    if error.any (·.isMatching w ev) then none
    else if listener.isMatching w ev then
      if counter ≤ 1 then some ⟨ev.instrAfter instr, stream⟩
      else resume w error listener (counter - 1) (ev.instrAfter instr) stream
    else resume w error listener counter (ev.instrAfter instr) stream

/-- `addListenerAndResume`, for a listener with counter 1. -/
def Replay.addListenerAndResume (w : ℕ) (error : Option Listener) (r : Replay) (listener : Listener) :
    Option Replay :=
  Replay.resume w error listener 1 r.instr r.stream

variable {w n d counter : ℕ} {error : Option Listener} {l l' : Listener} {stream : List SimEvent}
  {r : Replay}

theorem le_instrAfter (n : ℕ) (ev : SimEvent) : n ≤ ev.instrAfter n := by
  cases ev <;> simp [SimEvent.instrAfter]

/-- The number of the current dynamic instruction behind some events. -/
def instrBehind (n : ℕ) (stream : List SimEvent) : ℕ := stream.foldl SimEvent.instrAfter n

theorem le_instrBehind (n : ℕ) (stream : List SimEvent) : n ≤ instrBehind n stream := by
  induction stream generalizing n with
  | nil => exact le_rfl
  | cons ev stream ih => exact (le_instrAfter n ev).trans (ih (ev.instrAfter n))

theorem resume_past (hr : Replay.resume w error l counter n stream = some r) :
    ∃ past, stream = past ++ r.stream ∧ r.instr = instrBehind n past := by
  induction stream generalizing counter n with
  | nil => cases hr
  | cons ev stream ih =>
    have hcons : ∀ counter, Replay.resume w error l counter (ev.instrAfter n) stream = some r →
        ∃ past, ev :: stream = past ++ r.stream ∧ r.instr = instrBehind n past := by
      intro counter hrest
      obtain ⟨past, rfl, hinstr⟩ := ih hrest
      exact ⟨ev :: past, rfl, hinstr⟩
    rw [Replay.resume] at hr
    split at hr
    · cases hr
    · split at hr
      · split at hr
        · obtain rfl := Option.some.inj hr
          exact ⟨[ev], rfl, rfl⟩
        · exact hcons _ hr
      · exact hcons _ hr

/-! ## Where a listener stops -/

/-- **An event of dynamic instruction `d` matches the listener**, in a stream that begins behind the
breakpoint event of instruction `n`. -/
def FiresIn (w : ℕ) (l : Listener) : ℕ → List SimEvent → ℕ → Prop
  | _, [], _ => False
  | n, ev :: stream, d =>
    (ev.instrAfter n = d ∧ l.isMatching w ev = true) ∨ FiresIn w l (ev.instrAfter n) stream d

theorem firesIn_append {front : List SimEvent} : FiresIn w l n (front ++ stream) d ↔
    FiresIn w l n front d ∨ FiresIn w l (instrBehind n front) stream d := by
  induction front generalizing n with
  | nil => exact (false_or (FiresIn w l n stream d)).symm ▸ Iff.rfl
  | cons ev front ih =>
    rw [List.cons_append, FiresIn, FiresIn, ih, or_assoc]
    rfl

theorem FiresIn.mem (h : FiresIn w l n stream d) : ∃ ev ∈ stream, l.isMatching w ev = true := by
  induction stream generalizing n with
  | nil => exact h.elim
  | cons ev stream ih =>
    rcases h with ⟨-, hmatch⟩ | h
    · exact ⟨ev, List.mem_cons_self, hmatch⟩
    · obtain ⟨ev', hev', hmatch⟩ := ih h
      exact ⟨ev', List.mem_cons_of_mem _ hev', hmatch⟩

theorem FiresIn.bounds (h : FiresIn w l n stream d) : n ≤ d ∧ d ≤ instrBehind n stream := by
  induction stream generalizing n with
  | nil => exact h.elim
  | cons ev stream ih =>
    rcases h with ⟨rfl, -⟩ | h
    · exact ⟨le_instrAfter n ev, le_instrBehind _ stream⟩
    · exact ⟨(le_instrAfter n ev).trans (ih h).1, (ih h).2⟩

/-- **What resuming does**: it skips the events that do not match, up to the first one that does. -/
theorem resume_eq_some (hr : Replay.resume w error l 1 n stream = some r) :
    ∃ skipped ev, stream = skipped ++ ev :: r.stream ∧ l.isMatching w ev = true ∧
      (∀ ev' ∈ skipped, l.isMatching w ev' = false) ∧ r.instr = ev.instrAfter (instrBehind n skipped) := by
  induction stream generalizing n with
  | nil => cases hr
  | cons ev stream ih =>
    rw [Replay.resume] at hr
    split at hr
    · cases hr
    · by_cases hmatch : l.isMatching w ev = true
      · rw [if_pos hmatch, if_pos le_rfl] at hr
        obtain rfl := Option.some.inj hr
        exact ⟨[], ev, rfl, hmatch, by simp, rfl⟩
      · rw [if_neg hmatch] at hr
        obtain ⟨skipped, ev', rfl, hev', hskipped, hinstr⟩ := ih hr
        refine ⟨ev :: skipped, ev', rfl, hev', fun ev'' hev'' => ?_, hinstr⟩
        rcases List.mem_cons.mp hev'' with rfl | hev''
        · exact Bool.not_eq_true _ ▸ hmatch
        · exact hskipped ev'' hev''

theorem FiresIn.instr_le (h : FiresIn w l n stream d)
    (hr : Replay.resume w error l 1 n stream = some r) : r.instr ≤ d := by
  obtain ⟨skipped, ev, rfl, -, hskipped, hinstr⟩ := resume_eq_some hr
  rcases firesIn_append.mp h with hfront | ⟨rfl, -⟩ | hrest
  · obtain ⟨ev', hev', hmatch⟩ := hfront.mem
    rw [hskipped ev' hev'] at hmatch
    cases hmatch
  · exact hinstr.le
  · exact hinstr.le.trans hrest.bounds.1

/-- What fires in a later instruction still does so where a listener has stopped. -/
theorem FiresIn.after (h : FiresIn w l' n stream d) (hr : Replay.resume w error l 1 n stream = some r)
    (hlt : r.instr < d) : FiresIn w l' r.instr r.stream d := by
  obtain ⟨skipped, ev, rfl, -, -, hinstr⟩ := resume_eq_some hr
  rcases firesIn_append.mp h with hfront | ⟨rfl, -⟩ | hrest
  · have hle := le_instrAfter (instrBehind n skipped) ev
    exact absurd hfront.bounds.2 (by omega)
  · omega
  · rwa [hinstr]

/-- An access of the instruction whose breakpoint event stops the simulator still comes. -/
theorem FiresIn.after_breakpoint {ip addr : ℕ} {type : AccessType}
    (h : FiresIn w (.memAccess addr type) n stream d)
    (hr : Replay.resume w error (.bpSingle ip) 1 n stream = some r) (hle : r.instr ≤ d) :
    FiresIn w (.memAccess addr type) r.instr r.stream d := by
  obtain ⟨skipped, ev, rfl, hev, -, hinstr⟩ := resume_eq_some hr
  cases ev with
  | memoryAccess => cases hev
  | breakpoint time ip' =>
    rw [SimEvent.instrAfter] at hinstr
    rcases firesIn_append.mp h with hfront | ⟨-, hmatch⟩ | hrest
    · exact absurd hfront.bounds.2 (by omega)
    · cases hmatch
    · rw [hinstr]
      exact hrest

theorem lt_instr_of_breakpoint {watch : ℕ}
    (hr : Replay.resume w error (.bpSingle watch) 1 n stream = some r) : n < r.instr := by
  obtain ⟨skipped, ev, -, hev, -, hinstr⟩ := resume_eq_some hr
  cases ev with
  | memoryAccess => cases hev
  | breakpoint time ip => exact hinstr ▸ Nat.lt_succ_of_le (le_instrBehind n skipped)

/-! ## Counting instructions -/

/-- The addresses of the instructions of a stream. -/
def breakpoints : List SimEvent → List ℕ
  | [] => []
  | .breakpoint _ ip :: stream => ip :: breakpoints stream
  | .memoryAccess _ _ _ _ _ :: stream => breakpoints stream

theorem instrBehind_eq (n : ℕ) (stream : List SimEvent) :
    instrBehind n stream = n + (breakpoints stream).length := by
  induction stream generalizing n with
  | nil => rfl
  | cons ev stream ih =>
    cases ev with
    | breakpoint time ip =>
      rw [breakpoints, List.length_cons, Nat.add_comm (breakpoints stream).length, ← Nat.add_assoc]
      exact ih (n + 1)
    | memoryAccess time ip addr width type => exact ih n

variable {funcEnd : Option ℕ} {watch ip k : ℕ} {ips : List ℕ}

/-- **The next instruction**, seen by a breakpoint: it is in error, matches, or is skipped. -/
theorem resume_breakpoint (w : ℕ) (funcEnd : Option ℕ) (watch : ℕ) (h : breakpoints stream = ip :: ips) :
    ∃ rest, breakpoints rest = ips ∧
    ∀ counter n, Replay.resume w (funcEnd.map .bpSingle) (.bpSingle watch) counter n stream =
      if funcEnd.any (bpMatches w · ip) then none
      else if bpMatches w watch ip then
        if counter ≤ 1 then some ⟨n + 1, rest⟩
        else Replay.resume w (funcEnd.map .bpSingle) (.bpSingle watch) (counter - 1) (n + 1) rest
      else Replay.resume w (funcEnd.map .bpSingle) (.bpSingle watch) counter (n + 1) rest := by
  induction stream with
  | nil => cases h
  | cons ev stream ih =>
    cases ev with
    | breakpoint time ip' =>
      obtain ⟨rfl, rfl⟩ := List.cons.inj h
      refine ⟨stream, rfl, fun counter n => ?_⟩
      rw [Replay.resume]
      cases funcEnd <;> rfl
    | memoryAccess time ip' addr width type =>
      obtain ⟨rest, hrest, hresume⟩ := ih h
      refine ⟨rest, hrest, fun counter n => ?_⟩
      rw [← hresume, Replay.resume]
      cases funcEnd <;> rfl

/-- **Counting instructions.** A breakpoint at any address with counter `k` stops at the `k`-th
instruction. -/
theorem resume_counter (hk : 0 < k) (hlen : k ≤ (breakpoints stream).length) :
    ∃ r, Replay.resume w none (.bpSingle (anyAddr w)) k n stream = some r ∧ r.instr = n + k := by
  induction k generalizing n stream with
  | zero => omega
  | succ k ih =>
    obtain ⟨ip, ips, hips⟩ := List.exists_cons_of_length_pos (hk.trans_le hlen)
    obtain ⟨rest, hrest, hresume⟩ := resume_breakpoint w none (anyAddr w) hips
    have hany : bpMatches w (anyAddr w) ip = true := decide_eq_true (.inl rfl)
    have hstep := hresume (k + 1) n
    rw [if_neg (by simp), if_pos hany] at hstep
    rcases Nat.eq_zero_or_pos k with rfl | hpos
    · exact ⟨⟨n + 1, rest⟩, hstep, rfl⟩
    · rw [if_neg (by omega)] at hstep
      rw [hips, List.length_cons, ← hrest] at hlen
      obtain ⟨r, hr, hinstr⟩ := ih (n := n + 1) hpos (Nat.le_of_succ_le_succ hlen)
      exact ⟨r, hstep.trans hr, by omega⟩

/-- **Wait for one listener after the other.** -/
def Replay.waitFor (w : ℕ) (funcEnd : Option ℕ) (r : Replay) (listeners : List Listener) : Option Replay :=
  listeners.foldlM (Replay.addListenerAndResume w (funcEnd.map .bpSingle)) r

theorem waitFor_cons (w : ℕ) (funcEnd : Option ℕ) (r : Replay) (l : Listener) (ls : List Listener) :
    r.waitFor w funcEnd (l :: ls) =
      (Replay.resume w (funcEnd.map .bpSingle) l 1 r.instr r.stream).bind (·.waitFor w funcEnd ls) := rfl

theorem waitFor_append {ls ls' : List Listener} {r' : Replay} :
    r.waitFor w funcEnd (ls ++ ls') = some r' ↔
      ∃ r₁, r.waitFor w funcEnd ls = some r₁ ∧ r₁.waitFor w funcEnd ls' = some r' := by
  rw [Replay.waitFor, List.foldlM_append]
  exact Option.bind_eq_some_iff

theorem waitFor_past {ls : List Listener} {r' : Replay} (h : r.waitFor w funcEnd ls = some r') :
    ∃ past, r.stream = past ++ r'.stream ∧ r'.instr = instrBehind r.instr past := by
  induction ls generalizing r with
  | nil =>
    obtain rfl := Option.some.inj h
    exact ⟨[], rfl, rfl⟩
  | cons l ls ih =>
    rw [waitFor_cons] at h
    obtain ⟨r₁, hr₁, hrest⟩ := Option.bind_eq_some_iff.mp h
    obtain ⟨past, hpast, hinstr⟩ := resume_past hr₁
    obtain ⟨past', hpast', hinstr'⟩ := ih hrest
    refine ⟨past ++ past', by rw [hpast, hpast', List.append_assoc], ?_⟩
    rw [hinstr', hinstr, instrBehind, instrBehind, instrBehind, List.foldl_append]

/-- Every breakpoint stops in a later instruction than the one before. -/
theorem add_le_instr_of_waitFor {r' : Replay}
    (h : r.waitFor w funcEnd (.replicate k (.bpSingle watch)) = some r') :
    r.instr + k ≤ r'.instr := by
  induction k generalizing r with
  | zero => exact (Option.some.inj h) ▸ le_rfl
  | succ k ih =>
    rw [List.replicate_succ, waitFor_cons] at h
    obtain ⟨r₁, hr₁, hrest⟩ := Option.bind_eq_some_iff.mp h
    have hlt := lt_instr_of_breakpoint hr₁
    have hle := ih hrest
    omega

/-- Waiting `k` times for a breakpoint that matches the next `k` instructions stops at the `k`-th one. -/
theorem instr_of_waitFor {r' : Replay} (hlen : k ≤ (breakpoints r.stream).length)
    (hmatch : ∀ ip ∈ (breakpoints r.stream).take k, bpMatches w watch ip = true)
    (h : r.waitFor w funcEnd (.replicate k (.bpSingle watch)) = some r') : r'.instr = r.instr + k := by
  induction k generalizing r with
  | zero => exact (Option.some.inj h) ▸ rfl
  | succ k ih =>
    obtain ⟨ip, ips, hips⟩ := List.exists_cons_of_length_pos (k.succ_pos.trans_le hlen)
    obtain ⟨rest, hrest, hresume⟩ := resume_breakpoint w funcEnd watch hips
    rw [hips, List.take_succ_cons, List.forall_mem_cons] at hmatch
    rw [List.replicate_succ, waitFor_cons, hresume, if_pos hmatch.1, if_pos le_rfl] at h
    rw [hips, List.length_cons, ← hrest] at hlen
    split at h
    · cases h
    · have hinstr := ih (r := ⟨r.instr + 1, rest⟩) (Nat.le_of_succ_le_succ hlen) (hrest ▸ hmatch.2) h
      rw [hinstr, Nat.add_assoc, Nat.add_comm 1 k]

/-- **Waiting `k` times for a breakpoint** stops at the `k`-th instruction iff the breakpoint matches all
the instructions up to there, and none of them is in error. -/
theorem waitFor_replicate_iff (w : ℕ) (funcEnd : Option ℕ) (watch : ℕ)
    (hlen : k ≤ (breakpoints r.stream).length) :
    (∃ r', r.waitFor w funcEnd (.replicate k (.bpSingle watch)) = some r' ∧ r'.instr = r.instr + k) ↔
      ∀ ip ∈ (breakpoints r.stream).take k,
        bpMatches w watch ip = true ∧ ¬ funcEnd.any (bpMatches w · ip) = true := by
  induction k generalizing r with
  | zero => exact ⟨fun _ => by simp, fun _ => ⟨r, rfl, rfl⟩⟩
  | succ k ih =>
    obtain ⟨ip, ips, hips⟩ := List.exists_cons_of_length_pos (k.succ_pos.trans_le hlen)
    obtain ⟨rest, hrest, hresume⟩ := resume_breakpoint w funcEnd watch hips
    rw [hips, List.take_succ_cons, List.forall_mem_cons, List.replicate_succ, waitFor_cons, hresume]
    by_cases herror : funcEnd.any (bpMatches w · ip) = true
    · simp [herror]
    by_cases hmatch : bpMatches w watch ip = true
    · rw [if_neg herror, if_pos hmatch, if_pos le_rfl, Option.bind_some]
      rw [hips, List.length_cons, ← hrest] at hlen
      have hih := ih (r := ⟨r.instr + 1, rest⟩) (Nat.le_of_succ_le_succ hlen)
      rw [hrest, Nat.add_right_comm] at hih
      rw [← hih, and_iff_right ⟨hmatch, herror⟩, Nat.add_assoc r.instr k 1]
    · -- a skipped instruction cannot be made up for
      rw [if_neg herror, if_neg hmatch]
      refine iff_of_false ?_ fun hall => hmatch hall.1.1
      rintro ⟨r', hr', hinstr⟩
      obtain ⟨r₁, hr₁, hwait⟩ := Option.bind_eq_some_iff.mp hr'
      have hlt := lt_instr_of_breakpoint hr₁
      have hle := add_le_instr_of_waitFor hwait
      omega

/-- Behind `k` breakpoints that stopped at the next `k` instructions, later events still come, and so do
the accesses of the `k`-th instruction. -/
theorem FiresIn.after_replicate {r' : Replay} (h : FiresIn w l r.instr r.stream d)
    (hr : r.waitFor w funcEnd (.replicate k (.bpSingle watch)) = some r') (hinstr : r'.instr = r.instr + k)
    (hd : r'.instr < d ∨ r'.instr ≤ d ∧ ∃ addr type, l = .memAccess addr type) :
    FiresIn w l r'.instr r'.stream d := by
  induction k generalizing r with
  | zero => exact (Option.some.inj hr) ▸ h
  | succ k ih =>
    rw [List.replicate_succ, waitFor_cons] at hr
    obtain ⟨r₁, hr₁, hrest⟩ := Option.bind_eq_some_iff.mp hr
    have hlt := lt_instr_of_breakpoint hr₁
    have hle := add_le_instr_of_waitFor hrest
    refine ih ?_ hrest (by omega)
    rcases hd with hd | ⟨hd, addr, type, rfl⟩
    · exact h.after hr₁ (by omega)
    · exact h.after_breakpoint hr₁ (by omega)

end FailStar
