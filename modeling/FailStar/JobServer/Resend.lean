import FailStar.JobServer.Completion

/-! # What the server sends to its clients

`m_CommMutex` is meant to keep a job intact while it is sent again: it is taken before a running job is
picked, and before a result is received into a job. But it is released before the two sends.

* **`unsent`**, **`received`**, **`resending`** — the jobs waiting for a first send, those whose message
  was overwritten by a result, and those picked to be sent again.
* **`serializes_params`** — as long as no result arrives for a job between picking and serializing it,
  and no result is left half parsed, every job message sent is what was passed to `addParam`. -/

namespace FailStar

/-! ## Jobs by what is going to happen to them -/

/-- The jobs in the local list that wait for their first send, or to be put back. -/
def Active.unsent : Active → List Job
  | .dequeue _ _ _ exp | .sendJob _ _ exp | .insertRunning _ _ exp | .requeue exp => exp
  | _ => []

@[inherit_doc Active.unsent]
def Suspended.unsent : Suspended → List Job
  | .workCtrl _ exp | .workJob _ _ exp => exp
  | _ => []

/-- The jobs of a list of received results whose result was parsed. -/
def Recvd.successful (recvd : Recvd) : List Job := (recvd.filter (·.2.2)).map (·.1)

/-- The jobs in the local list whose message is a result. -/
def Active.received : Active → List Job
  | .receive _ recvd | .lockPut recvd | .put recvd => Recvd.successful recvd
  | _ => []

@[inherit_doc Active.received]
def Suspended.received : Suspended → List Job
  | .result _ _ _ recvd | .drop _ recvd => Recvd.successful recvd
  | _ => []

/-- The job picked to be sent again and not serialized yet. -/
def Active.resending : Active → List Job
  | .resend _ tempExp => [tempExp]
  | _ => []

@[inherit_doc Active.resending]
def Suspended.resending : Suspended → List Job
  | .resendCtrl _ (some tempExp) => [tempExp]
  | _ => []

/-- **The control message a coroutine sends or has sent names the jobs that follow**, when `id` is the
workload ID of every job. -/
def Active.Aligned (id : Job → ℕ) : Active → Prop
  | .dequeue _ _ ctrlmsg exp => ctrlmsg.command = .workFollows ∧ ctrlmsg.workloadID = exp.map id
  | .sendJob ctrlmsg i exp | .insertRunning ctrlmsg i exp =>
    ctrlmsg.command = .workFollows ∧ ctrlmsg.workloadID.drop i = exp.map id
  | .lockPick ctrlmsg | .pick ctrlmsg => ctrlmsg.workloadID = []
  | .resend ctrlmsg tempExp =>
    ctrlmsg.command = .workFollows ∧ ctrlmsg.workloadID = [id tempExp]
  | _ => True

@[inherit_doc Active.Aligned]
def Suspended.Aligned (id : Job → ℕ) : Suspended → Prop
  | .workCtrl ctrlmsg exp => ctrlmsg.command = .workFollows ∧ ctrlmsg.workloadID = exp.map id
  | .workJob ctrlmsg i exp =>
    ctrlmsg.command = .workFollows ∧ ctrlmsg.workloadID.drop i = exp.map id
  | .resendCtrl ctrlmsg (some tempExp) =>
    ctrlmsg.command = .workFollows ∧ ctrlmsg.workloadID = [id tempExp]
  | _ => True

/-- The workload ID announced for the job that the active coroutine serializes next, and the job. -/
def Active.serializing : Active → Option (Option ℕ × Job)
  | .sendJob ctrlmsg i (front :: _) => some (ctrlmsg.workloadID[i]?, front)
  | .resend ctrlmsg tempExp => some (ctrlmsg.workloadID[0]?, tempExp)
  | _ => none

theorem Suspended.Aligned.congr {id id' : Job → ℕ} {c : Suspended} (h : c.Aligned id)
    (hid : ∀ j ∈ c.unsent ++ c.resending, id' j = id j) : c.Aligned id' := by
  cases c with
  | workCtrl | workJob =>
    refine ⟨h.1, h.2.trans ?_⟩
    simp_all [Suspended.unsent, Suspended.resending, eq_comm]
  | resendCtrl ctrlmsg tempExp =>
    cases tempExp with
    | none => exact h
    | some tempExp =>
      refine ⟨h.1, h.2.trans ?_⟩
      simp_all [Suspended.unsent, Suspended.resending, eq_comm]
  | _ => exact h

namespace JobServer

variable {M : Type*} {s s' : JobServer M} {a : Active} {c : Suspended} {o : Outcome M}
  {l : Action M} {j : ℕ}

/-- The jobs of all coroutines in progress, as far as `f` and `g` select them. -/
def locals (f : Active → List Job) (g : Suspended → List Job) (s : JobServer M) : List Job :=
  s.active.elim [] f ++ s.suspended.flatMap g

/-- The jobs in `m_undoneJobs` or in a local list that wait for their first send. -/
def unsent (s : JobServer M) : List Job :=
  s.undoneJobs.queue ++ locals Active.unsent Suspended.unsent s

/-- The jobs whose message is a result. -/
def received (s : JobServer M) : List Job :=
  s.collected ++ locals Active.received Suspended.received s

/-- The jobs picked to be sent again and not serialized yet. -/
def resending (s : JobServer M) : List Job := locals Active.resending Suspended.resending s

theorem count_locals_add_le {f₁ f₂ f₃ : Active → List Job} {g₁ g₂ g₃ : Suspended → List Job}
    (hf : ∀ a, (f₁ a).count j + (f₂ a).count j ≤ (f₃ a).count j)
    (hg : ∀ c, (g₁ c).count j + (g₂ c).count j ≤ (g₃ c).count j) :
    (locals f₁ g₁ s).count j + (locals f₂ g₂ s).count j ≤ (locals f₃ g₃ s).count j := by
  have hsusp : ∀ cs : List Suspended, (cs.flatMap g₁).count j + (cs.flatMap g₂).count j ≤
      (cs.flatMap g₃).count j := by
    intro cs
    induction cs with
    | nil => simp
    | cons c cs ih =>
      simp only [List.flatMap_cons, List.count_append]
      have := hg c
      omega
  have := hsusp s.suspended
  simp only [locals, List.count_append]
  cases s.active with
  | none =>
    simp only [Option.elim_none, List.count_nil]
    omega
  | some a =>
    have := hf a
    simp only [Option.elim_some]
    omega

theorem count_successful_le (recvd : Recvd) :
    (Recvd.successful recvd).count j ≤ (recvd.map Prod.fst).count j :=
  (List.Sublist.map Prod.fst List.filter_sublist).count_le j

/-- A job is unsent, running or received, but only one of these at a time. -/
theorem count_unsent_add_le :
    s.unsent.count j + s.runningJobs.values.count j + s.received.count j ≤ s.jobs.count j := by
  have hlocals : (locals Active.unsent Suspended.unsent s).count j +
      (locals Active.received Suspended.received s).count j ≤ s.held.count j := by
    refine count_locals_add_le (fun a => ?_) fun c => ?_
    · cases a with
      | receive msgs recvd | lockPut recvd | put recvd =>
        have := count_successful_le (j := j) recvd
        simp only [Active.unsent, Active.received, Active.held, List.count_append, List.count_nil]
        omega
      | _ => simp [Active.unsent, Active.received, Active.held]
    · cases c with
      | result exp id msgs recvd | drop msgs recvd =>
        have := count_successful_le (j := j) recvd
        simp only [Suspended.unsent, Suspended.received, Suspended.held, List.count_append,
          List.count_nil, List.count_cons]
        omega
      | _ => simp [Suspended.unsent, Suspended.received, Suspended.held]
  simp only [unsent, received, collected, jobs, List.count_append]
  omega

theorem mem_locals_eraseIdx {f : Active → List Job} {g : Suspended → List Job} {i : ℕ}
    (hc : s.suspended[i]? = some c) : j ∈ locals f g s ↔
      j ∈ locals f g { s with suspended := s.suspended.eraseIdx i } ∨ j ∈ g c := by
  have hperm := ((perm_eraseIdx hc).flatMap_right g).mem_iff (a := j)
  simp only [locals, List.mem_append, hperm, List.flatMap_cons]
  tauto

/-! ## How a step changes them -/

/-- The job whose result is received when the coroutine is resumed. -/
def resultOf : Suspended → Outcome M → List Job
  | .result exp _ _ _, .result _ => [exp]
  | _, _ => []

section

attribute [local simp] unsent received resending locals collected next suspend finish unlockComm
  setWorkloadID setMessage Active.unsent Suspended.unsent Active.received Suspended.received
  Active.resending Suspended.resending Recvd.successful List.filter_cons

theorem commStep_unsent (ha : s.active = some a) (hs : CommStep s a s') (hj : j ∈ s'.unsent) :
    j ∈ s.unsent := by
  cases hs with
  | lock hl => cases hl <;> simpa [-List.mem_flatMap, ha] using hj
  | dequeue hi hq =>
    simp [-List.mem_flatMap, ha, hq] at hj ⊢
    tauto
  | insertRunning =>
    rw [sendLoop_eq] at hj
    split at hj <;> simp [-List.mem_flatMap, ha] at hj ⊢ <;> tauto
  | _ =>
    simp [-List.mem_flatMap, ha] at hj ⊢
    tauto

theorem commStep_received (ha : s.active = some a) (hs : CommStep s a s') :
    j ∈ s'.received ↔ j ∈ s.received := by
  cases hs with
  | lock hl => cases hl <;> simp [-List.mem_flatMap, ha]
  | insertRunning =>
    rw [sendLoop_eq]
    split <;> simp [-List.mem_flatMap, ha]
  | putDone | receive | drop =>
    simp [-List.mem_flatMap, ha]
    tauto
  | _ => simp [-List.mem_flatMap, ha]

/-- The active coroutine picks running jobs only. -/
theorem commStep_resending (ha : s.active = some a) (hs : CommStep s a s') (hj : j ∈ s'.resending) :
    j ∈ s.resending ∨ j ∈ s.runningJobs.values := by
  cases hs with
  | lock hl => cases hl <;> simp [-List.mem_flatMap, ha] at hj ⊢ <;> tauto
  | pick hp =>
    simp [-List.mem_flatMap, ha] at hj ⊢
    rcases hj with hj | rfl
    · exact .inl hj
    · exact .inr (SynchronizedMap.pickone_mem hp)
  | insertRunning =>
    rw [sendLoop_eq] at hj
    split at hj <;> simp [-List.mem_flatMap, ha] at hj ⊢ <;> tauto
  | _ =>
    simp [-List.mem_flatMap, ha] at hj ⊢
    tauto

theorem resumeStep_unsent (ha : s.active = none) (hs : ResumeStep s c o s') (hj : j ∈ s'.unsent) :
    j ∈ s.unsent ∨ j ∈ c.unsent := by
  cases hs with
  | announced =>
    rw [sendLoop_eq] at hj
    split at hj <;> simp [-List.mem_flatMap, ha] at hj ⊢ <;> tauto
  | _ =>
    simp [-List.mem_flatMap, ha] at hj ⊢
    tauto

theorem resumeStep_received (ha : s.active = none) (hs : ResumeStep s c o s') :
    j ∈ s'.received ↔ (j ∈ s.received ∨ j ∈ c.received) ∨ j ∈ resultOf c o := by
  cases hs with
  | announced =>
    rw [sendLoop_eq]
    split <;> simp [-List.mem_flatMap, ha, resultOf]
  | result | unparsable | resultFailed | dropped =>
    simp [-List.mem_flatMap, ha, resultOf]
    tauto
  | _ => simp [-List.mem_flatMap, ha, resultOf]

theorem resumeStep_resending (ha : s.active = none) (hs : ResumeStep s c o s')
    (hj : j ∈ s'.resending) : j ∈ s.resending ∨ j ∈ c.resending := by
  cases hs with
  | announced =>
    rw [sendLoop_eq] at hj
    split at hj <;> simp [-List.mem_flatMap, ha] at hj ⊢ <;> tauto
  | _ =>
    simp [-List.mem_flatMap, ha] at hj ⊢
    tauto

end

/-! ## The contents of job objects -/

/-- The message of the job is what was passed to `addParam`. -/
def Fresh (s : JobServer M) (j : Job) : Prop := ∀ d, s.data[j]? = some d → d.msg = d.params

theorem getWorkloadID_setMessage (exp : Job) (msg : M) :
    (s.setMessage exp msg).getWorkloadID = s.getWorkloadID := by
  funext j
  simp only [getWorkloadID, setMessage, List.getElem?_modify, Option.map_eq_map, Option.map_map]
  cases s.data[j]? with
  | none => rfl
  | some d => simp [apply_ite ExperimentData.workloadID]

theorem getWorkloadID_setWorkloadID_of_ne {exp id : ℕ} (h : j ≠ exp) :
    (s.setWorkloadID exp id).getWorkloadID j = s.getWorkloadID j := by
  simp only [getWorkloadID, setWorkloadID, List.getElem?_modify, if_neg (Ne.symm h), Option.map_eq_map,
    Option.map_map, Function.comp_def]

theorem getWorkloadID_setWorkloadID_self {exp id : ℕ} (h : exp < s.data.length) :
    (s.setWorkloadID exp id).getWorkloadID exp = id := by
  simp [getWorkloadID, setWorkloadID, h]

/-- Only a job in `m_undoneJobs` gets a new workload ID. -/
theorem commStep_getWorkloadID (hs : CommStep s a s') (hj : j ∉ s.undoneJobs.queue) :
    s'.getWorkloadID j = s.getWorkloadID j := by
  cases hs with
  | dequeue hi hq =>
    rw [hq, List.mem_cons, not_or] at hj
    exact getWorkloadID_setWorkloadID_of_ne hj.1
  | insertRunning => rw [sendLoop_eq]; rfl
  | _ => rfl

theorem resumeStep_getWorkloadID (hs : ResumeStep s c o s') :
    s'.getWorkloadID = s.getWorkloadID := by
  cases hs with
  | announced => rw [sendLoop_eq]; rfl
  | result | unparsable => exact getWorkloadID_setMessage _ _
  | _ => rfl

/-- A new object has no workload ID yet, like an object that does not exist. -/
theorem campaignStep_getWorkloadID {c : Campaign M} (hs : CampaignStep s c s') :
    s'.getWorkloadID = s.getWorkloadID := by
  cases hs with
  | enqueue =>
    funext j
    simp only [getWorkloadID, List.getElem?_append]
    split
    · rfl
    · rename_i hj
      rw [List.getElem?_eq_none (Nat.le_of_not_lt hj)]
      cases hk : j - s.data.length <;> simp
  | _ => rfl

theorem commStep_fresh (hs : CommStep s a s') (h : s.Fresh j) : s'.Fresh j := by
  cases hs with
  | @dequeue jobSize i ctrlmsg exp tempExp rest hi hq =>
    intro d hd
    simp only [next, setWorkloadID, List.getElem?_modify, Option.map_eq_map,
      Option.map_eq_some_iff] at hd
    obtain ⟨d', hd', rfl⟩ := hd
    have := h d' hd'
    split <;> exact this
  | insertRunning => rw [sendLoop_eq]; exact h
  | _ => exact h

theorem resumeStep_fresh (hs : ResumeStep s c o s') (hresult : j ∉ resultOf c o)
    (hparsable : ∀ msg, o ≠ .unparsable msg) (h : s.Fresh j) : s'.Fresh j := by
  cases hs with
  | announced => rw [sendLoop_eq]; exact h
  | @result exp id msgs recvd msg =>
    intro d hd
    have hne : exp ≠ j := fun h => hresult (by simp [resultOf, h])
    simp only [next, setMessage, List.getElem?_modify, if_neg hne, Option.map_eq_map,
      Option.map_id_fun', id_eq] at hd
    exact h d hd
  | unparsable => exact absurd rfl (hparsable _)
  | _ => exact h

theorem campaignStep_fresh {c : Campaign M} (hs : CampaignStep s c s') (h : s.Fresh j) :
    s'.Fresh j := by
  cases hs with
  | enqueue =>
    intro d hd
    simp only [List.getElem?_append] at hd
    split at hd
    · exact h d hd
    · cases hk : j - s.data.length <;> simp [hk] at hd
      rw [← hd]
  | _ => exact h

/-! ## The jobs that a control message names -/

theorem Owned.count_le_one (h : s.Owned) :
    s.unsent.count j + s.runningJobs.values.count j + s.received.count j ≤ 1 :=
  count_unsent_add_le.trans (List.nodup_iff_count_le_one.mp h.nodup j)

theorem Owned.not_mem_of_running (h : s.Owned) (hj : j ∈ s.runningJobs.values) :
    j < s.data.length ∧ j ∉ s.unsent ∧ j ∉ s.received := by
  have hle := h.count_le_one (j := j)
  have hpos := List.count_pos_iff.mpr hj
  refine ⟨h.lt_length j (mem_jobs.mpr (.inl (.inr (.inl hj)))), ?_, ?_⟩
  · exact List.count_eq_zero.mp (by omega)
  · exact List.count_eq_zero.mp (by omega)

theorem Owned.not_mem_received (h : s.Owned) (hj : j ∈ s.unsent) : j ∉ s.received := by
  have hle := h.count_le_one (j := j)
  have hpos := List.count_pos_iff.mpr hj
  exact List.count_eq_zero.mp (by omega)

/-- **Every control message names the jobs that follow it**, and a job picked to be sent again is never
given another workload ID. -/
structure Addressed (s : JobServer M) : Prop where
  owned : s.Owned
  resending : ∀ j : ℕ, j ∈ s.resending → j < s.data.length ∧ j ∉ s.unsent
  active : ∀ a, s.active = some a → a.Aligned s.getWorkloadID
  suspended : ∀ c ∈ s.suspended, c.Aligned s.getWorkloadID

theorem addressed_init (runid capacity : ℕ) : (init runid capacity : JobServer M).Addressed where
  owned := owned_init runid capacity
  resending := by simp [init, JobServer.resending, locals]
  active := by simp [init]
  suspended := by simp [init]

/-- The jobs a suspended coroutine is going to send are not in `m_undoneJobs`. -/
theorem Addressed.not_mem_undone (h : s.Addressed) (hc : c ∈ s.suspended)
    (hj : j ∈ c.unsent ++ c.resending) : j ∉ s.undoneJobs.queue := by
  intro hundone
  rcases List.mem_append.mp hj with hj | hj
  · have hle := h.owned.count_le_one (j := j)
    have hpos := List.count_pos_iff.mpr hundone
    have hpos' := List.count_pos_iff.mpr (List.mem_flatMap_of_mem hc hj)
    simp only [unsent, locals, List.count_append] at hle
    omega
  · have hres : j ∈ s.resending :=
      List.mem_append_right _ (List.mem_flatMap_of_mem hc hj)
    exact (h.resending j hres).2 (List.mem_append_left _ hundone)

/-- The active coroutine names the jobs it is going to send. -/
theorem commStep_active_aligned (h : s.Addressed) (ha : s.active = some a) (hs : CommStep s a s') :
    ∀ a', s'.active = some a' → a'.Aligned s'.getWorkloadID := by
  have haligned := h.active a ha
  cases hs with
  | @dequeue jobSize i ctrlmsg exp tempExp rest hi hq =>
    rintro _ ⟨⟩
    have hlt : tempExp < s.data.length :=
      h.owned.lt_length tempExp (mem_jobs.mpr (.inl (.inl (by simp [hq]))))
    -- the dequeued job is not among those dequeued before
    have hne : ∀ j ∈ exp, j ≠ tempExp := by
      rintro j hj rfl
      have hle := h.owned.count_le_one (j := j)
      have hpos := List.count_pos_iff.mpr hj
      simp only [unsent, locals, ha, hq, Option.elim_some, Active.unsent, List.count_append,
        List.count_cons_self] at hle
      omega
    refine ⟨haligned.1, ?_⟩
    rw [haligned.2, List.map_append, List.map_singleton]
    refine congrArg₂ (· ++ ·) (List.map_congr_left fun j hj => ?_) ?_
    · exact (getWorkloadID_setWorkloadID_of_ne (hne j hj)).symm
    · exact congrArg (fun w => [w]) (getWorkloadID_setWorkloadID_self hlt).symm
  | fallback => rintro _ ⟨⟩; exact haligned.2
  | lock hl hm => cases hl <;> rintro _ ⟨⟩ <;> exact haligned
  | @insertRunning ctrlmsg i front exp =>
    rw [sendLoop_eq]
    intro a' ha'
    split at ha' <;> cases ha'
    refine ⟨haligned.1, ?_⟩
    rw [← List.tail_drop, haligned.2]
    rfl
  | announce | sendJob | requeued | pick | pickNone | resend | receive | drop | undoneLeft | complete
    | incomplete => rintro _ ⟨⟩
  | _ => rintro _ ⟨⟩; exact trivial

/-- A coroutine that starts to wait names the jobs it is going to send. -/
theorem commStep_suspended_aligned (h : s.Addressed) (ha : s.active = some a) (hs : CommStep s a s') :
    ∀ c ∈ s'.suspended, c ∈ s.suspended ∨ c.Aligned s'.getWorkloadID := by
  have haligned := h.active a ha
  have hnew : ∀ {c c' : Suspended}, c' ∈ s.suspended ++ [c] → c.Aligned s.getWorkloadID →
      c' ∈ s.suspended ∨ c'.Aligned s.getWorkloadID := by
    intro c c' hc' hc
    rcases List.mem_append.mp hc' with hc' | hc'
    · exact .inl hc'
    · exact .inr (List.mem_singleton.mp hc' ▸ hc)
  intro c hc
  cases hs with
  | announce | sendJob => exact hnew hc haligned
  | pick =>
    refine hnew hc ⟨rfl, ?_⟩
    exact congrArg (· ++ _) haligned
  | pickNone | resend | receive | drop => exact hnew hc trivial
  | insertRunning =>
    rw [sendLoop_eq] at hc
    exact .inl hc
  | _ => exact .inl hc

theorem commStep_addressed (h : s.Addressed) (ha : s.active = some a) (hs : CommStep s a s') :
    s'.Addressed := by
  refine ⟨step_owned h.owned (.comm ha hs), fun j hj => ?_, commStep_active_aligned h ha hs,
    fun c hc => ?_⟩
  · -- a job in `resending` was there before or has just been picked among the running ones
    have hold : j < s.data.length ∧ j ∉ s.unsent := by
      rcases commStep_resending ha hs hj with hj | hj
      · exact h.resending j hj
      · exact ⟨(h.owned.not_mem_of_running hj).1, (h.owned.not_mem_of_running hj).2.1⟩
    rw [(commStep_frame hs).length]
    exact ⟨hold.1, fun hj' => hold.2 (commStep_unsent ha hs hj')⟩
  · rcases commStep_suspended_aligned h ha hs c hc with hc | hc
    · refine (h.suspended c hc).congr fun j hj => ?_
      exact commStep_getWorkloadID hs (h.not_mem_undone hc hj)
    · exact hc

theorem resume_unsent {i : ℕ} (ha : s.active = none) (hc : s.suspended[i]? = some c)
    (hs : ResumeStep { s with suspended := s.suspended.eraseIdx i } c o s') (hj : j ∈ s'.unsent) :
    j ∈ s.unsent := by
  have hj' := resumeStep_unsent (s := { s with suspended := s.suspended.eraseIdx i }) ha hs hj
  rw [unsent, List.mem_append, mem_locals_eraseIdx hc]
  rw [unsent, List.mem_append] at hj'
  tauto

theorem resume_received {i : ℕ} (ha : s.active = none) (hc : s.suspended[i]? = some c)
    (hs : ResumeStep { s with suspended := s.suspended.eraseIdx i } c o s') :
    j ∈ s'.received ↔ j ∈ s.received ∨ j ∈ resultOf c o := by
  rw [resumeStep_received (s := { s with suspended := s.suspended.eraseIdx i }) ha hs,
    show s.received = s.collected ++ locals _ _ s from rfl, List.mem_append, mem_locals_eraseIdx hc,
    received, List.mem_append, show collected _ = s.collected from rfl]
  tauto

theorem resume_resending {i : ℕ} (ha : s.active = none) (hc : s.suspended[i]? = some c)
    (hs : ResumeStep { s with suspended := s.suspended.eraseIdx i } c o s') (hj : j ∈ s'.resending) :
    j ∈ s.resending := by
  have hj' := resumeStep_resending (s := { s with suspended := s.suspended.eraseIdx i }) ha hs hj
  exact (mem_locals_eraseIdx hc).mpr hj'

/-- A resumed coroutine goes on with the control message it has sent. -/
theorem resumeStep_aligned {id : Job → ℕ} (ha : s.active = none) (haligned : c.Aligned id)
    (hs : ResumeStep s c o s') : (∀ a, s'.active = some a → a.Aligned id) ∧
      ∀ c' ∈ s'.suspended, c' ∈ s.suspended ∨ c'.Aligned id := by
  cases hs with
  | announced =>
    rw [sendLoop_eq]
    refine ⟨fun a' ha' => ?_, fun c' hc' => .inl hc'⟩
    split at ha' <;> cases ha'
    exact haligned
  | needWork => exact ⟨by rintro _ ⟨⟩; exact ⟨rfl, rfl⟩, fun c' hc' => .inl hc'⟩
  | jobSent | resendAnnounced => exact ⟨by rintro _ ⟨⟩; exact haligned, fun c' hc' => .inl hc'⟩
  | helloDie =>
    refine ⟨by rintro _ ⟨⟩, fun c' hc' => ?_⟩
    rcases List.mem_append.mp hc' with hc' | hc'
    · exact .inl hc'
    · exact .inr (List.mem_singleton.mp hc' ▸ trivial)
  | helloFailed | died | announceFailed | resendEnds | resent =>
    exact ⟨fun a' ha' => (Option.some_ne_none a' (ha'.symm.trans ha)).elim, fun c' hc' => .inl hc'⟩
  | oldResult => exact ⟨by rintro _ ⟨⟩, fun c' hc' => .inl hc'⟩
  | _ => exact ⟨by rintro _ ⟨⟩; exact trivial, fun c' hc' => .inl hc'⟩

theorem resume_getWorkloadID {i : ℕ}
    (hs : ResumeStep { s with suspended := s.suspended.eraseIdx i } c o s') :
    s'.getWorkloadID = s.getWorkloadID := by
  rw [resumeStep_getWorkloadID hs]
  rfl

theorem resume_addressed {i : ℕ} (h : s.Addressed) (ha : s.active = none) (hc : s.suspended[i]? = some c)
    (hs : ResumeStep { s with suspended := s.suspended.eraseIdx i } c o s') : s'.Addressed := by
  have hid := resume_getWorkloadID hs
  obtain ⟨hactive, hsusp⟩ := resumeStep_aligned
    (s := { s with suspended := s.suspended.eraseIdx i }) ha
    (h.suspended c (List.mem_of_getElem? hc)) hs
  refine ⟨step_owned h.owned (.resume ha hc hs), fun j hj => ?_, hid ▸ hactive, fun c' hc' => ?_⟩
  · obtain ⟨hlt, hunsent⟩ := h.resending j (resume_resending ha hc hs hj)
    rw [(resumeStep_frame hs).length]
    exact ⟨hlt, fun h' => hunsent (resume_unsent ha hc hs h')⟩
  · rw [hid]
    rcases hsusp c' hc' with hc' | hc'
    · exact h.suspended c' (List.mem_of_mem_eraseIdx hc')
    · exact hc'

theorem locals_accept {f : Active → List Job} {g : Suspended → List Job} (hg : g .hello = []) :
    locals f g { s with suspended := s.suspended ++ [.hello] } = locals f g s := by
  simp [locals, hg]

theorem accept_addressed (h : s.Addressed)
    (howned : Owned { s with suspended := s.suspended ++ [.hello] }) :
    Addressed { s with suspended := s.suspended ++ [.hello] } := by
  refine ⟨howned, fun j => ?_, h.active, fun c hc => ?_⟩
  · rw [resending, unsent, locals_accept rfl, locals_accept rfl]
    exact h.resending j
  · rcases List.mem_append.mp hc with hc | hc
    · exact h.suspended c hc
    · obtain rfl := List.mem_singleton.mp hc
      exact trivial

theorem campaignStep_locals {c : Campaign M} (hs : CampaignStep s c s') (f : Active → List Job)
    (g : Suspended → List Job) : locals f g s' = locals f g s := by
  rw [locals, locals, (campaignStep_frame hs).active, (campaignStep_frame hs).suspended]

/-- The object that `addParam` enqueues is a new one. -/
theorem campaignStep_addressed {c : Campaign M} (h : s.Addressed) (hs : CampaignStep s c s')
    (howned : s'.Owned) : s'.Addressed := by
  refine ⟨howned, fun j hj => ?_, ?_, ?_⟩
  · rw [resending, campaignStep_locals hs] at hj
    obtain ⟨hlt, hunsent⟩ := h.resending j hj
    rw [unsent, campaignStep_locals hs]
    rw [unsent] at hunsent
    have hne : j ≠ s.data.length := hlt.ne
    refine ⟨?_, ?_⟩
    · exact hlt.trans_le (by cases hs <;> simp [returnNoMore])
    · cases hs <;> simp_all [returnNoMore]
  · rw [(campaignStep_frame hs).active, campaignStep_getWorkloadID hs]
    exact h.active
  · rw [(campaignStep_frame hs).suspended, campaignStep_getWorkloadID hs]
    exact h.suspended

theorem step_addressed (h : s.Addressed) (hs : Step s l s') : s'.Addressed := by
  have howned := step_owned h.owned hs
  cases hs with
  | comm ha hs => exact commStep_addressed h ha hs
  | resume ha hc hs => exact resume_addressed h ha hc hs
  | campaign hc hs => exact campaignStep_addressed h hs howned
  | accept => exact accept_addressed h howned
  | addParam | setNoMoreExperiments | getNull | getDone =>
    exact ⟨howned, h.resending, h.active, h.suspended⟩

/-- The control message sent before names the job that is serialized. -/
theorem Addressed.serializing (h : s.Addressed) (ha : s.active = some a) {w : Option ℕ}
    (hser : a.serializing = some (w, j)) : j < s.data.length ∧ w = some (s.getWorkloadID j) := by
  have haligned := h.active a ha
  cases a with
  | sendJob ctrlmsg i exp =>
    cases exp with
    | nil => cases hser
    | cons front exp =>
      obtain ⟨rfl, rfl⟩ := Prod.mk.inj (Option.some.inj hser)
      have hheld : front ∈ s.jobs := by
        simp [jobs, held, ha, Active.held]
      refine ⟨h.owned.lt_length front hheld, ?_⟩
      rw [← Nat.add_zero i, ← List.getElem?_drop, haligned.2]
      rfl
  | resend ctrlmsg tempExp =>
    obtain ⟨rfl, rfl⟩ := Prod.mk.inj (Option.some.inj hser)
    have hres := h.resending tempExp (by simp [JobServer.resending, locals, ha, Active.resending])
    refine ⟨hres.1, ?_⟩
    rw [haligned.2]
    rfl
  | _ => cases hser

/-! ## The invariant -/

/-- **The condition under which jobs stay intact until they are serialized**: no result is received
into a job that was picked to be sent again and is not serialized yet, and no result is received that
cannot be parsed. -/
def LeavesIntact (s : JobServer M) : Action M → Prop
  | .resume i (.result msg) =>
    ∀ c ∈ s.suspended[i]?, ∀ j ∈ resultOf c (.result msg), j ∉ s.resending
  | .resume _ (.unparsable _) => False
  | _ => True

/-- **What the server is going to send is intact.** -/
structure Intact (s : JobServer M) : Prop where
  owned : s.Owned
  fresh : ∀ j : ℕ, s.Fresh j ∨ j ∈ s.received
  resending : ∀ j : ℕ, j ∈ s.resending → j < s.data.length ∧ j ∉ s.unsent ∧ j ∉ s.received
  active : ∀ a, s.active = some a → a.Aligned s.getWorkloadID
  suspended : ∀ c ∈ s.suspended, c.Aligned s.getWorkloadID

theorem Intact.addressed (h : s.Intact) : s.Addressed :=
  ⟨h.owned, fun j hj => ⟨(h.resending j hj).1, (h.resending j hj).2.1⟩, h.active, h.suspended⟩

theorem Addressed.intact (h : s.Addressed) (hfresh : ∀ j : ℕ, s.Fresh j ∨ j ∈ s.received)
    (hresending : ∀ j : ℕ, j ∈ s.resending → j ∉ s.received) : s.Intact :=
  ⟨h.owned, hfresh, fun j hj => ⟨(h.resending j hj).1, (h.resending j hj).2, hresending j hj⟩, h.active,
    h.suspended⟩

theorem intact_init (runid capacity : ℕ) : (init runid capacity : JobServer M).Intact :=
  (addressed_init runid capacity).intact (fun j => .inl (by simp [Fresh, init]))
    (by simp [init, JobServer.resending, locals])

/-- **The active coroutine leaves everything intact.** -/
theorem commStep_intact (h : s.Intact) (ha : s.active = some a) (hs : CommStep s a s') :
    s'.Intact := by
  refine (commStep_addressed h.addressed ha hs).intact (fun j => ?_) fun j hj => ?_
  · exact (h.fresh j).imp (commStep_fresh hs) (commStep_received ha hs).mpr
  · rw [commStep_received ha hs]
    rcases commStep_resending ha hs hj with hj | hj
    · exact (h.resending j hj).2.2
    · exact (h.owned.not_mem_of_running hj).2.2

/-- **A resumed coroutine leaves everything intact**, unless it receives a result into a job that is
about to be sent again. -/
theorem resume_intact {i : ℕ} (h : s.Intact) (ha : s.active = none) (hc : s.suspended[i]? = some c)
    (hs : ResumeStep { s with suspended := s.suspended.eraseIdx i } c o s')
    (hok : s.LeavesIntact (.resume i o)) : s'.Intact := by
  have hparsable : ∀ msg, o ≠ .unparsable msg := by
    rintro msg rfl
    exact hok
  have hresult : ∀ j ∈ resultOf c o, j ∉ s.resending := by
    cases o with
    | result msg => exact hok c hc
    | _ => simp [resultOf]
  refine (resume_addressed h.addressed ha hc hs).intact (fun j => ?_) fun j hj => ?_
  · rw [resume_received ha hc hs]
    by_cases hj : j ∈ resultOf c o
    · exact .inr (.inr hj)
    · exact (h.fresh j).imp (resumeStep_fresh hs hj hparsable) .inl
  · have hj' := resume_resending ha hc hs hj
    rw [resume_received ha hc hs]
    rintro (h' | h')
    · exact (h.resending j hj').2.2 h'
    · exact hresult j h' hj'

/-- A fetched result is still a result. -/
theorem mem_received_getDone {exp : Job} {rest : List Job} (hq : s.doneJobs.queue = exp :: rest) :
    j ∈ received { s with
      doneJobs := { s.doneJobs with queue := rest }, returned := s.returned ++ [exp] } ↔ j ∈ s.received := by
  simp only [received, collected, hq, List.mem_append, List.mem_cons, List.not_mem_nil]
  exact or_congr_left (by tauto)

/-- **The campaign thread leaves everything intact.** -/
theorem campaignStep_intact {c : Campaign M} (h : s.Intact) (hs : CampaignStep s c s') (howned : s'.Owned) :
    s'.Intact := by
  have hframe := campaignStep_frame hs
  have hreceived : s'.received = s.received := by
    rw [received, received, collected, collected, hframe.results, hframe.returned, campaignStep_locals hs]
  refine (campaignStep_addressed h.addressed hs howned).intact (fun j => ?_) fun j hj => ?_
  · rw [hreceived]
    exact (h.fresh j).imp_left (campaignStep_fresh hs)
  · rw [resending, campaignStep_locals hs] at hj
    rw [hreceived]
    exact (h.resending j hj).2.2

/-- **A step leaves what the server is going to send intact.** -/
theorem step_intact (h : s.Intact) (hs : Step s l s') (hok : s.LeavesIntact l) : s'.Intact := by
  have haddressed := step_addressed h.addressed hs
  cases hs with
  | comm ha hs => exact commStep_intact h ha hs
  | resume ha hc hs => exact resume_intact h ha hc hs hok
  | campaign hc hs => exact campaignStep_intact h hs haddressed.owned
  | accept =>
    refine haddressed.intact (fun j => ?_) fun j => ?_
    · rw [received, locals_accept rfl]
      exact h.fresh j
    · rw [resending, received, locals_accept rfl, locals_accept rfl]
      exact fun hj => (h.resending j hj).2.2
  | addParam | setNoMoreExperiments | getNull =>
    exact haddressed.intact h.fresh fun j hj => (h.resending j hj).2.2
  | getDone hq =>
    refine haddressed.intact (fun j => ?_) fun j hj => ?_
    · rw [mem_received_getDone hq]
      exact h.fresh j
    · rw [mem_received_getDone hq]
      exact (h.resending j hj).2.2

/-- Along a run that leaves jobs intact, what the server is going to send is intact. -/
theorem intact_of_reachable {runid capacity : ℕ}
    (h : ReachableBy step LeavesIntact (init runid capacity) s) : s.Intact :=
  h.invariant (intact_init runid capacity) fun _ _ _ hs hok hstep =>
    step_intact hs (step_cases hstep) hok

/-- A job that waits for its first send, or was picked to be sent again, has no result. -/
theorem Intact.serializing (h : s.Intact) (ha : s.active = some a) {w : Option ℕ}
    (hser : a.serializing = some (w, j)) :
    j ∉ s.received ∧ j < s.data.length ∧ w = some (s.getWorkloadID j) := by
  refine ⟨?_, h.addressed.serializing ha hser⟩
  cases a with
  | sendJob ctrlmsg i exp =>
    cases exp with
    | nil => cases hser
    | cons front exp =>
      obtain ⟨-, rfl⟩ := Prod.mk.inj (Option.some.inj hser)
      exact h.owned.not_mem_received (by simp [unsent, locals, ha, Active.unsent])
  | resend ctrlmsg tempExp =>
    obtain ⟨-, rfl⟩ := Prod.mk.inj (Option.some.inj hser)
    exact (h.resending tempExp (by simp [JobServer.resending, locals, ha, Active.resending])).2.2
  | _ => cases hser

/-- **What the server sends.** In every run whose steps all satisfy `LeavesIntact`: whenever a job is
serialized, as a first send or again, it is neither in `m_doneJobs` nor returned by `getDone`, its
message is what was passed to `addParam`, and the control message sent before names its workload ID. -/
theorem serializes_params (runid capacity : ℕ) (s : JobServer M)
    (h : ReachableBy step LeavesIntact (init runid capacity) s) (a : Active) (w : Option ℕ) (j : Job)
    (ha : s.active = some a) (hser : a.serializing = some (w, j)) :
    j ∉ s.doneJobs.queue ∧ j ∉ s.returned ∧
      ∃ d, s.data[j]? = some d ∧ d.msg = d.params ∧ w = some d.workloadID := by
  have hintact := intact_of_reachable h
  obtain ⟨hreceived, hlt, hw⟩ := hintact.serializing ha hser
  have hfresh := (hintact.fresh j).resolve_right hreceived
  simp only [received, collected, List.mem_append, not_or] at hreceived
  refine ⟨hreceived.1.1, hreceived.1.2, s.data[j], List.getElem?_eq_getElem hlt, ?_, ?_⟩
  · exact hfresh _ (List.getElem?_eq_getElem hlt)
  · rw [hw, getWorkloadID, List.getElem?_eq_getElem hlt]
    rfl

instance : DecidablePred s.LeavesIntact
  | .resume i (.result msg) => inferInstanceAs
      (Decidable (∀ c ∈ s.suspended[i]?, ∀ j ∈ resultOf c (.result msg), j ∉ s.resending))
  | .resume _ (.unparsable _) => .isFalse id
  | .resume _ .failed | .resume _ .sent | .resume _ (.ctrl _)
  | .addParam _ | .setNoMoreExperiments | .campaign | .getDone | .accept | .comm => .isTrue trivial

/-- A client asks for work while all jobs are running: one of them is picked to be sent again, and the
coroutine waits for the control message to be sent. -/
def pickAgain : List (Action ℕ) :=
  [.accept, .resume 0 (.ctrl { command := .needWork, runId := some 0, jobSize := some 1 }), .comm,
    .comm, .comm]

/-- What the active coroutine serializes next, what `getDone` has returned, and the first job object. -/
def serialized (s : JobServer ℕ) : Option (Option ℕ × Job) × List Job × Option (ExperimentData ℕ) :=
  (s.active.bind Active.serializing, s.returned, s.data[0]?)

/-- A run that is evaluated up to what is serialized. -/
theorem exists_of_map_serialized {o : Option (JobServer ℕ)} {w : Option ℕ × Job} {returned : List Job}
    {d : ExperimentData ℕ} (h : o.map serialized = some (some w, returned, some d)) :
    ∃ s a, o = some s ∧ s.active = some a ∧ a.serializing = some w ∧ s.returned = returned ∧
      s.data[0]? = some d := by
  obtain ⟨s, hs, heq⟩ := Option.map_eq_some_iff.mp h
  obtain ⟨hactive, hreturned, hdata⟩ : _ ∧ _ ∧ _ := by simpa only [serialized, Prod.mk.injEq] using heq
  obtain ⟨a, ha, hser⟩ := Option.bind_eq_some_iff.mp hactive
  exact ⟨s, a, hs, ha, hser, hreturned, hdata⟩

theorem serializes_params_pickAgain :
    ∃ s a, runBy step (fun s l => decide (s.LeavesIntact l)) (init 1 0)
      (([.addParam 7, .campaign] : List (Action ℕ)) ++ fetchOne ++ pickAgain ++ [.resume 0 .sent]) = some s ∧
      s.active = some a ∧ a.serializing = some (some 1, 0) ∧ 0 ∉ s.doneJobs.queue ∧ 0 ∉ s.returned ∧
      ∃ d, s.data[0]? = some d ∧ d.msg = d.params ∧ some 1 = some d.workloadID := by
  have hrun : (runBy step (fun s l => decide (s.LeavesIntact l)) (init 1 0)
      (([.addParam 7, .campaign] : List (Action ℕ)) ++ fetchOne ++ pickAgain ++ [.resume 0 .sent])).map
        serialized =
      some (some (some 1, 0), [], some { params := 7, msg := 7, workloadID := 1 }) := by
    decide +kernel
  obtain ⟨s, a, hs, ha, hser, -, -⟩ := exists_of_map_serialized hrun
  exact ⟨s, a, hs, ha, hser, serializes_params 1 0 s (reachableBy_of_runBy _ hs) a (some 1) 0 ha hser⟩

/-- A job with parameters 7 is picked to be sent again; while the control message is sent, its result 8
arrives and is fetched by the campaign. The server then serializes the fetched object, with the result
in place of the parameters. The same happens, without any race, after a result that could not be
parsed: the job is running again and is sent again with what the parser left behind. -/
theorem resend_serializes_result :
    (∃ (s : JobServer ℕ) (a : Active) (d : ExperimentData ℕ),
      run step (init 1 0) (([.addParam 7, .campaign] : List (Action ℕ)) ++ fetchOne ++ pickAgain ++
        announceResult 1 1 ++ receiveResult 1 8 ++ [.getDone, .resume 0 .sent]) = some s ∧
      s.active = some a ∧ a.serializing = some (some 1, 0) ∧ s.returned = [0] ∧
      s.data[0]? = some d ∧ d.params = 7 ∧ d.msg = 8) ∧
    (∃ (s : JobServer ℕ) (a : Active) (d : ExperimentData ℕ),
      run step (init 1 0) (([.addParam 7, .campaign] : List (Action ℕ)) ++ fetchOne ++
        announceResult 0 1 ++ [.resume 0 (.unparsable 8), .comm, .comm, .comm, .comm, .comm, .comm] ++
        pickAgain ++ [.resume 0 .sent]) = some s ∧
      s.active = some a ∧ a.serializing = some (some 1, 0) ∧
      s.data[0]? = some d ∧ d.params = 7 ∧ d.msg = 8) := by
  have hrace : (run step (init 1 0) (([.addParam 7, .campaign] : List (Action ℕ)) ++ fetchOne ++ pickAgain ++
      announceResult 1 1 ++ receiveResult 1 8 ++ [.getDone, .resume 0 .sent])).map serialized =
      some (some (some 1, 0), [0], some { params := 7, msg := 8, workloadID := 1 }) := by
    decide +kernel
  have hparse : (run step (init 1 0) (([.addParam 7, .campaign] : List (Action ℕ)) ++ fetchOne ++
      announceResult 0 1 ++ [.resume 0 (.unparsable 8), .comm, .comm, .comm, .comm, .comm, .comm] ++
      pickAgain ++ [.resume 0 .sent])).map serialized =
      some (some (some 1, 0), [], some { params := 7, msg := 8, workloadID := 1 }) := by
    decide +kernel
  obtain ⟨s, a, hs, ha, hser, hreturned, hdata⟩ := exists_of_map_serialized hrace
  obtain ⟨s', a', hs', ha', hser', -, hdata'⟩ := exists_of_map_serialized hparse
  exact ⟨⟨s, a, _, hs, ha, hser, hreturned, hdata, rfl, rfl⟩, ⟨s', a', _, hs', ha', hser', hdata', rfl, rfl⟩⟩

end JobServer

end FailStar
