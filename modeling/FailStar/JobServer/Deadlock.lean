import FailStar.JobServer.Resend

/-! # When the `comm_service` thread blocks

All coroutines run on one thread, so a coroutine that blocks in a container operation or on
`m_CommMutex` blocks every client. This file says when another thread can release it.

* **`commStep_eq_none`** — the thread blocks on `m_CommMutex`, or on a full `m_undoneJobs` when it puts
  back jobs it could not send.
* **`comm_thread_released`** — in the first case the campaign thread releases it. In the second nobody
  does: the blocked thread is the only one that takes jobs out of `m_undoneJobs`. -/

namespace FailStar

/-- The actions of the campaign thread and the collecting thread. -/
def JobServer.Action.byOther {M : Type*} : JobServer.Action M → Bool
  | .addParam _ | .setNoMoreExperiments | .campaign | .getDone => true
  | .accept | .resume _ _ | .comm => false

namespace JobServer

variable {M : Type*} {s s' : JobServer M} {a : Active} {l : Action M}

/-- The thread is blocked on a full `m_undoneJobs`. -/
def BlockedOnUndone (s : JobServer M) : Prop :=
  ∃ front exp, s.active = some (.requeue (front :: exp)) ∧ s.undoneJobs.Full

/-- The other threads can take steps after which the `comm_service` thread goes on. -/
def CanBeReleased (s : JobServer M) : Prop :=
  ∃ t, ReachableBy step (fun _ l => l.byOther = true) s t ∧ (t.step .comm).isSome = true

/-- **The condition under which `m_undoneJobs` never blocks**: `addParam` leaves room in a bounded queue
for the dequeued jobs that are not sent yet. -/
def LeavesRoom (s : JobServer M) : Action M → Prop
  | .campaign => ∀ params, s.campaign = .enqueue params →
      s.undoneJobs.capacity = 0 ∨ s.unsent.length < s.undoneJobs.capacity
  | _ => True

instance : DecidablePred s.LeavesRoom
  | .campaign =>
    match hc : s.campaign with
    | .enqueue params =>
      decidable_of_iff (s.undoneJobs.capacity = 0 ∨ s.unsent.length < s.undoneJobs.capacity)
        ⟨fun hroom _ _ => hroom, fun hroom => hroom params hc⟩
    | .idle | .lockComm | .setFlag | .testUndone | .testRunning | .finish =>
      .isTrue fun _ henqueue => nomatch hc.symm.trans henqueue
  | .addParam _ | .setNoMoreExperiments | .getDone | .accept | .resume _ _ | .comm => .isTrue trivial

/-! ## Capacities -/

theorem step_capacity (hs : Step s l s') : s'.undoneJobs.capacity = s.undoneJobs.capacity ∧
    s'.doneJobs.capacity = s.doneJobs.capacity := by
  cases hs with
  | campaign _ h => cases h <;> exact ⟨rfl, rfl⟩
  | resume _ _ h =>
    have hframe := resumeStep_frame h
    exact ⟨by rw [hframe.undoneJobs], by rw [hframe.doneJobs]⟩
  | comm _ h =>
    cases h with
    | insertRunning => rw [sendLoop_eq]; exact ⟨rfl, rfl⟩
    | _ => exact ⟨rfl, rfl⟩
  | _ => exact ⟨rfl, rfl⟩

theorem capacity_of_reachable {runid capacity : ℕ} {ok : JobServer M → Action M → Prop}
    (h : ReachableBy step ok (init runid capacity) s) :
    s.undoneJobs.capacity = capacity ∧ s.doneJobs.capacity = 0 := by
  refine h.invariant (I := fun t : JobServer M => t.undoneJobs.capacity = capacity ∧
    t.doneJobs.capacity = 0) ⟨rfl, rfl⟩ fun t l t' ht _ hstep => ?_
  have hcap := step_capacity (step_cases hstep)
  rw [hcap.1, hcap.2]
  exact ht

theorem exclusive_of_reachable {runid capacity : ℕ} {ok : JobServer M → Action M → Prop}
    (h : ReachableBy step ok (init runid capacity) s) : s.Exclusive :=
  h.invariant (exclusive_init runid capacity) fun _ _ _ hs _ hstep =>
    step_exclusive hs (step_cases hstep)

/-! ## Where the thread blocks -/

theorem lockComm_eq_none {a' : Active} (h : s.lockComm a' = none) : s.commMutex ≠ none := by
  intro hm
  rw [lockComm, if_pos hm] at h
  cases h

/-- **The operations that can block**: taking `m_CommMutex`, and putting back a job. -/
theorem commStep_eq_none (hwf : a.WellFormed) (hdone : s.doneJobs.capacity = 0)
    (h : s.commStep a = none) :
    (∃ front exp, a = .requeue (front :: exp) ∧ s.undoneJobs.Full) ∨
      (∃ a', Locks a a' ∧ s.commMutex ≠ none) := by
  cases a with
  | sendJob ctrlmsg i exp | insertRunning ctrlmsg i exp =>
    cases exp with
    | nil => exact absurd rfl hwf.2
    | cons front exp => cases h
  | requeue exp =>
    cases exp with
    | nil => cases h
    | cons front exp =>
      exact .inl ⟨front, exp, rfl,
        SynchronizedQueue.enqueue_eq_none.mp (Option.map_eq_none_iff.mp h)⟩
  | lockPick ctrlmsg => exact .inr ⟨_, .pick ctrlmsg, lockComm_eq_none h⟩
  | lockRemove ids => exact .inr ⟨_, .remove ids, lockComm_eq_none h⟩
  | lockPut recvd => exact .inr ⟨_, .put recvd, lockComm_eq_none h⟩
  | put recvd =>
    rcases recvd with _ | ⟨⟨exp, id, _ | _⟩, recvd⟩
    · cases h
    · cases h
    · have hfull := SynchronizedQueue.enqueue_eq_none.mp (Option.map_eq_none_iff.mp h)
      exact absurd hfull (SynchronizedQueue.not_full_of_capacity hdone)
  | dequeue jobSize i ctrlmsg exp =>
    rw [commStep] at h
    split at h
    · split at h <;> cases h
    · cases h
  | pick ctrlmsg =>
    rw [commStep] at h
    split at h <;> cases h
  | remove ids msgs => cases ids <;> cases h
  | receive msgs recvd =>
    rcases msgs with _ | ⟨⟨_ | exp, id⟩, msgs⟩
    · cases h
    · cases h
    · cases h
  | testUndone | testRunning =>
    rw [commStep] at h
    split at h <;> cases h
  | resend => cases h

/-! ## Blocked on `m_CommMutex` -/

/-- A coroutine that finds `m_CommMutex` free goes on. -/
theorem comm_isSome_of_locks {a' : Active} (ha : s.active = some a) (hl : Locks a a')
    (hm : s.commMutex = none) : (s.step .comm).isSome = true := by
  cases hl <;> simp [step, ha, commStep, lockComm, hm]

/-- The campaign thread releases `m_CommMutex` while the `comm_service` thread does not move. -/
def ReleasesMutex (s : JobServer M) : Prop :=
  ∃ t, ReachableBy step (fun _ l => l.byOther = true) s t ∧ t.active = s.active ∧ t.commMutex = none

theorem reachableBy_campaign {t : JobServer M} (hstep : s.step .campaign = some t) :
    ReachableBy step (fun _ l => l.byOther = true) s t :=
  .tail (l := .campaign) .refl rfl hstep

theorem ReleasesMutex.of_step {t : JobServer M} (h : t.ReleasesMutex)
    (hstep : s.step .campaign = some t) (hactive : t.active = s.active) : s.ReleasesMutex := by
  obtain ⟨u, hreach, hu, hm⟩ := h
  exact ⟨u, (reachableBy_campaign hstep).trans hreach, hu.trans hactive, hm⟩

theorem releasesMutex_of_return (hstep : s.step .campaign = some s.returnNoMore) : s.ReleasesMutex :=
  ⟨s.returnNoMore, reachableBy_campaign hstep, rfl, rfl⟩

theorem releasesMutex_of_finish (hc : s.campaign = .finish) : s.ReleasesMutex := by
  have hstep : s.step .campaign =
      some { s with doneJobs := s.doneJobs.setIsFinished }.returnNoMore := by
    simp [step, hc, campaignStep, returnNoMore]
  exact ⟨_, reachableBy_campaign hstep, rfl, rfl⟩

theorem releasesMutex_of_testRunning (hc : s.campaign = .testRunning) : s.ReleasesMutex := by
  by_cases hsize : s.runningJobs.size = 0
  · have hstep : s.step .campaign = some { s with campaign := .finish } := by
      rw [step, hc, campaignStep, if_pos hsize]
    exact (releasesMutex_of_finish rfl).of_step hstep rfl
  · exact releasesMutex_of_return (by rw [step, hc, campaignStep, if_neg hsize])

theorem releasesMutex_of_testUndone (hc : s.campaign = .testUndone) : s.ReleasesMutex := by
  by_cases hsize : s.undoneJobs.size = 0
  · have hstep : s.step .campaign = some { s with campaign := .testRunning } := by
      rw [step, hc, campaignStep, if_pos hsize]
    exact (releasesMutex_of_testRunning rfl).of_step hstep rfl
  · exact releasesMutex_of_return (by rw [step, hc, campaignStep, if_neg hsize])

theorem releasesMutex_of_setFlag (hc : s.campaign = .setFlag) : s.ReleasesMutex := by
  have hstep : s.step .campaign = some { s with
      noMoreExps := true, undoneJobs := s.undoneJobs.setIsFinished, campaign := .testUndone } := by
    rw [step, hc, campaignStep]
  exact (releasesMutex_of_testUndone rfl).of_step hstep rfl

/-- **The campaign thread leaves its critical section** without waiting for anyone. -/
theorem releasesMutex_of_critical (hc : s.campaign.critical = true) : s.ReleasesMutex := by
  cases hs : s.campaign with
  | idle | enqueue | lockComm => simp [hs, Campaign.critical] at hc
  | setFlag => exact releasesMutex_of_setFlag hs
  | testUndone => exact releasesMutex_of_testUndone hs
  | testRunning => exact releasesMutex_of_testRunning hs
  | finish => exact releasesMutex_of_finish hs

/-- A thread blocked on `m_CommMutex` can be released: the campaign thread holds it. -/
theorem canBeReleased_of_locks {a' : Active} (hexcl : s.Exclusive) (ha : s.active = some a)
    (hl : Locks a a') (hm : s.commMutex ≠ none) : s.CanBeReleased := by
  have hcritical : s.campaign.critical = true := by
    refine hexcl.campaign.mp ?_
    cases hholder : s.commMutex with
    | none => exact absurd hholder hm
    | some holder =>
      cases holder with
      | campaign => rfl
      | comm =>
        have hcomm := hexcl.comm.mp hholder
        rw [ha] at hcomm
        cases hl <;> simp [Active.critical] at hcomm
  obtain ⟨t, hreach, hactive, hfree⟩ := releasesMutex_of_critical hcritical
  exact ⟨t, hreach, comm_isSome_of_locks (hactive.trans ha) hl hfree⟩

/-! ## Blocked on `m_undoneJobs` -/

/-- No other thread takes a job out of a full `m_undoneJobs`. -/
theorem blockedOnUndone_step (h : s.BlockedOnUndone) (hl : l.byOther = true) (hs : Step s l s') :
    s'.BlockedOnUndone := by
  obtain ⟨front, exp, ha, hfull⟩ := h
  cases hs with
  | addParam | setNoMoreExperiments | getDone | getNull => exact ⟨front, exp, ha, hfull⟩
  | campaign _ hs =>
    refine ⟨front, exp, by rw [(campaignStep_frame hs).active]; exact ha, ?_⟩
    cases hs with
    | enqueue hroom => exact absurd hfull hroom
    | _ => exact hfull
  | accept | resume | comm => cases hl

/-- **Nobody releases a thread blocked on `m_undoneJobs`.** -/
theorem not_canBeReleased (h : s.BlockedOnUndone) : ¬ s.CanBeReleased := by
  rintro ⟨t, hreach, hgo⟩
  obtain ⟨front, exp, ha, hfull⟩ := hreach.invariant h
    fun _ _ _ ht hl hstep => blockedOnUndone_step ht hl (step_cases hstep)
  simp [step, ha, commStep, SynchronizedQueue.enqueue_eq_none.mpr hfull] at hgo

/-! ## Room in `m_undoneJobs` -/

theorem length_unsent_sendLoop {ctrlmsg : FailControlMessage} {i : ℕ} {exp : List Job} :
    (s.sendLoop ctrlmsg i exp).unsent.length ≤ s.undoneJobs.queue.length +
      (exp.length + (s.suspended.flatMap Suspended.unsent).length) := by
  rw [sendLoop_eq, unsent, locals]
  split <;> simp [Active.unsent]

/-- Coroutines only move jobs that wait for their first send, or take them away. -/
theorem commStep_unsent_length (ha : s.active = some a) (hs : CommStep s a s') :
    s'.unsent.length ≤ s.unsent.length := by
  cases hs with
  | insertRunning =>
    refine length_unsent_sendLoop.trans ?_
    simp [unsent, locals, ha, Active.unsent]
  | lock hl => cases hl <;> simp [unsent, locals, ha, Active.unsent, next]
  | dequeue hi hq =>
    simp [unsent, locals, ha, Active.unsent, hq, next, setWorkloadID]
    omega
  | _ =>
    simp [unsent, locals, ha, Active.unsent, Suspended.unsent, next, suspend, finish, unlockComm]
      <;> omega

theorem resume_unsent_length {c : Suspended} {o : Outcome M} {i : ℕ} (ha : s.active = none)
    (hc : s.suspended[i]? = some c)
    (hs : ResumeStep { s with suspended := s.suspended.eraseIdx i } c o s') :
    s'.unsent.length ≤ s.unsent.length := by
  have hperm := ((perm_eraseIdx hc).flatMap_right Suspended.unsent).length_eq
  rw [List.flatMap_cons, List.length_append] at hperm
  have hle : s'.unsent.length ≤ s.undoneJobs.queue.length +
      (c.unsent.length + ((s.suspended.eraseIdx i).flatMap Suspended.unsent).length) := by
    cases hs with
    | announced => exact length_unsent_sendLoop
    | _ =>
      simp [unsent, locals, ha, Active.unsent, Suspended.unsent, next, suspend, finish, setMessage]
  refine hle.trans ?_
  rw [← hperm]
  simp [unsent, locals, ha]

/-- As long as `addParam` leaves room, the jobs that wait for their first send fit into the queue. -/
theorem room_of_reachable {runid capacity : ℕ}
    (h : ReachableBy step LeavesRoom (init runid capacity) s) :
    capacity = 0 ∨ s.unsent.length ≤ capacity := by
  by_cases hcap : capacity = 0
  · exact .inl hcap
  refine .inr (h.invariant (I := fun t : JobServer M => t.undoneJobs.capacity = capacity ∧
    t.unsent.length ≤ capacity) ⟨rfl, by simp [init, unsent, locals]⟩ ?_).2
  rintro t l t' ⟨htcap, hlen⟩ hroom hstep
  have hs := step_cases hstep
  refine ⟨(step_capacity hs).1.trans htcap, ?_⟩
  cases hs with
  | addParam | setNoMoreExperiments | getDone | getNull => exact hlen
  | accept => simpa [unsent, locals, Suspended.unsent] using hlen
  | resume ha hc hs => exact (resume_unsent_length ha hc hs).trans hlen
  | comm ha hs => exact (commStep_unsent_length ha hs).trans hlen
  | campaign hc hs =>
    cases hs with
    | enqueue =>
      have hlt := (hroom _ hc).resolve_left (by omega)
      simp [unsent, locals] at hlt ⊢
      omega
    | _ => exact hlen

/-- With room for the unsent jobs, putting one back does not block. -/
theorem not_blockedOnUndone (hroom : s.undoneJobs.capacity = 0 ∨
    s.unsent.length ≤ s.undoneJobs.capacity) : ¬ s.BlockedOnUndone := by
  rintro ⟨front, exp, ha, hcap, hfull⟩
  have hlen := hroom.resolve_left hcap
  simp [unsent, locals, ha, Active.unsent] at hlen
  omega

/-! ## The result -/

/-- In a reachable state, a blocked thread can be released unless it is blocked on `m_undoneJobs`. -/
theorem canBeReleased_iff {runid capacity : ℕ} {ok : JobServer M → Action M → Prop}
    (h : ReachableBy step ok (init runid capacity) s) (hactive : s.active.isSome = true)
    (hblocked : s.step .comm = none) : s.CanBeReleased ↔ ¬ s.BlockedOnUndone := by
  refine ⟨fun hrel hundone => not_canBeReleased hundone hrel, fun hundone => ?_⟩
  obtain ⟨a, ha⟩ := Option.isSome_iff_exists.mp hactive
  have hnone : s.commStep a = none := by
    rw [← hblocked, step, ha]
    rfl
  have hwf := (owned_of_reachable h).wellFormed.active a ha
  obtain ⟨front, exp, rfl, hfull⟩ | ⟨a', hl, hm⟩ :=
    commStep_eq_none hwf (capacity_of_reachable h).2 hnone
  · exact absurd ⟨front, exp, ha, hfull⟩ hundone
  · exact canBeReleased_of_locks (exclusive_of_reachable h) ha hl hm

/-- **When the `comm_service` thread waits forever.** In every reachable state in which it is blocked,
the other threads can release it iff it is not blocked on a full `m_undoneJobs`. In every run in which
`addParam` leaves room for the dequeued jobs that are not sent yet, and in every run with an unlimited
queue, they can always release it. -/
theorem comm_thread_released (runid capacity : ℕ) :
    (∀ s : JobServer M, Reachable step (init runid capacity) s → s.active.isSome = true →
      s.step .comm = none → (s.CanBeReleased ↔ ¬ s.BlockedOnUndone)) ∧
    (∀ s : JobServer M, ReachableBy step LeavesRoom (init runid capacity) s →
      s.active.isSome = true → s.step .comm = none → s.CanBeReleased) ∧
    (capacity = 0 → ∀ s : JobServer M, Reachable step (init runid capacity) s →
      s.active.isSome = true → s.step .comm = none → s.CanBeReleased) := by
  refine ⟨fun s h => canBeReleased_iff h, fun s h hactive hblocked => ?_,
    fun hcap s h hactive hblocked => ?_⟩
  · refine (canBeReleased_iff h hactive hblocked).mpr (not_blockedOnUndone ?_)
    rw [(capacity_of_reachable h).1]
    exact room_of_reachable h
  · refine (canBeReleased_iff h hactive hblocked).mpr (not_blockedOnUndone (.inl ?_))
    rw [(capacity_of_reachable h).1, hcap]

/-- A client asks for work, but sending it a job fails, and the job is put back. Then the result of another
client meets a campaign thread inside `setNoMoreExperiments`. -/
def resultDuringEnd : List (Action ℕ) :=
  [.addParam 7, .campaign, .accept,
    .resume 0 (.ctrl { command := .needWork, runId := some 0, jobSize := some 1 }), .comm, .comm,
    .resume 0 .sent, .comm, .resume 0 .failed, .comm, .comm, .setNoMoreExperiments, .campaign, .accept,
    .resume 0 (.ctrl { command := .resultFollows, runId := some 1, workloadID := [1] })]

/-- With room for one job in `m_undoneJobs`. -/
theorem comm_thread_released_resultDuringEnd :
    ∃ s, runBy step (fun s l => decide (s.LeavesRoom l)) (init 1 1) resultDuringEnd = some s ∧
      s.undoneJobs.queue = [0] ∧ s.active.isSome = true ∧ s.step .comm = none ∧ s.CanBeReleased :=
  ⟨_, rfl, rfl, rfl, rfl,
    (comm_thread_released 1 1).2.1 _ (reachableBy_of_runBy resultDuringEnd rfl) rfl rfl⟩

/-- With room for one job in `m_undoneJobs`: a coroutine dequeues job 0, the campaign thread fills the
queue with job 1, and job 0 cannot be sent. The thread waits in `Enqueue` for a free slot that only
its own coroutines can make. -/
theorem requeue_into_full_queue_deadlocks :
    ∃ s, run step (init 1 1 : JobServer ℕ)
      [.addParam 7, .campaign, .addParam 9, .accept,
        .resume 0 (.ctrl { command := .needWork, runId := some 0, jobSize := some 1 }), .comm,
        .campaign, .comm, .resume 0 .sent, .comm, .resume 0 .failed] = some s ∧
      s.active = some (.requeue [0]) ∧ s.step .comm = none ∧ ¬ s.CanBeReleased :=
  ⟨_, rfl, rfl, rfl, not_canBeReleased ⟨0, [], rfl, by decide⟩⟩

end JobServer

end FailStar
