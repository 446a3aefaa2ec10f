import FailStar.JobServer.Ownership

/-! # Delivery: at most once, and without loss

From the conservation of jobs follow the two delivery guarantees of the job server.

* **`at_most_once`** — no interleaving of coroutines, no message and no failure duplicates a job.
* **`no_job_lost`** — a job is lost exactly by a step that fails to announce dequeued jobs, or that
  inserts a job under a workload ID another running job has. -/

namespace FailStar

/-- The coroutine waits for the control message that announces its dequeued jobs to be sent. -/
def Suspended.announces : Suspended → Bool
  | .workCtrl _ _ => true
  | _ => false

namespace JobServer

variable {M : Type*} {s s' : JobServer M} {l : Action M} {j : ℕ}

/-! ## At-most-once delivery -/

/-- **The ownership invariant**: every job is in at most one place, once. -/
structure Owned (s : JobServer M) : Prop where
  wellFormed : s.WellFormed
  nodup : s.jobs.Nodup
  lt_length : ∀ j : ℕ, j ∈ s.jobs → j < s.data.length

theorem owned_init (runid capacity : ℕ) : (init runid capacity : JobServer M).Owned :=
  ⟨wellFormed_init runid capacity, by simp, by simp⟩

theorem step_wellFormed (h : s.WellFormed) (hs : Step s l s') : s'.WellFormed := by
  cases hs with
  | campaign _ hc => cases hc <;> exact ⟨h.active, h.suspended⟩
  | accept => exact h.of_append [.hello] h.active rfl (by simp [Suspended.WellFormed])
  | @resume i c o t hidle hc hr =>
    refine resumeStep_wellFormed (s := { s with suspended := s.suspended.eraseIdx i })
      ⟨h.active, fun c' hc' => ?_⟩ (h.suspended c (List.mem_of_getElem? hc)) hr
    exact h.suspended c' (List.mem_of_mem_eraseIdx hc')
  | comm ha hc => exact commStep_wellFormed h (h.active _ ha) hc
  | _ => exact ⟨h.active, h.suspended⟩

theorem eq_of_mem_added (hj : j ∈ s.added l) : j = s.data.length ∧ s.added l = [s.data.length] := by
  cases l with
  | campaign =>
    rw [added] at hj ⊢
    cases hc : s.campaign <;> simp_all [enqueued]
  | _ => simp [added] at hj

/-- The object `addParam` enqueues is not among the jobs yet. -/
theorem step_owned_nodup (h : s.Owned) : (s.jobs ++ s.added l).Nodup := by
  refine List.nodup_append.mpr ⟨h.nodup, ?_, ?_⟩
  · cases hadd : s.added l with
    | nil => exact List.nodup_nil
    | cons x xs =>
      have hx : x ∈ s.added l := by simp [hadd]
      rw [← hadd, (eq_of_mem_added hx).2]
      exact List.nodup_singleton _
  · rintro (x : ℕ) hx _ hy rfl
    have := h.lt_length x hx
    have := (eq_of_mem_added hy).1
    omega

/-- The jobs before and after a step, and those it drops, are objects passed to `addParam`. -/
theorem lt_length_of_mem (h : s.Owned) (hs : Step s l s') (hj : j ∈ s'.jobs ++ s.dropped l) :
    j < s'.data.length := by
  have hlen := step_data_length hs
  rcases List.mem_append.mp ((step_jobs h.wellFormed hs).mem_iff.mp hj) with hj | hj
  · have := h.lt_length j hj
    omega
  · obtain ⟨rfl, hadd⟩ := eq_of_mem_added hj
    rw [hadd, List.length_singleton] at hlen
    omega

/-- **A step keeps ownership.** The jobs after it are among the jobs before it and one fresh object. -/
theorem step_owned (h : s.Owned) (hs : Step s l s') : s'.Owned := by
  refine ⟨step_wellFormed h.wellFormed hs, ?_, fun j hj => ?_⟩
  · have hnodup := (step_jobs h.wellFormed hs).nodup_iff.mpr (step_owned_nodup h)
    exact (List.nodup_append.mp hnodup).1
  · exact lt_length_of_mem h hs (List.mem_append_left _ hj)

theorem owned_of_reachable {runid capacity : ℕ} {ok : JobServer M → Action M → Prop}
    (h : ReachableBy step ok (init runid capacity) s) : s.Owned :=
  h.invariant (owned_init runid capacity) fun _ _ _ hs _ hstep => step_owned hs (step_cases hstep)

/-- **At-most-once delivery.** In every reachable state, whatever the clients send and whichever sends
and receives fail, no job is in two of `m_undoneJobs`, `m_runningJobs`, `m_doneJobs` or twice in one of
them, none of the jobs there was returned by `getDone`, and `getDone` has returned none twice. -/
theorem at_most_once (runid capacity : ℕ) (s : JobServer M)
    (h : Reachable step (init runid capacity) s) :
    (s.undoneJobs.queue ++ s.runningJobs.values ++ s.doneJobs.queue ++ s.returned).Nodup := by
  have hnodup := (owned_of_reachable h).nodup
  rw [jobs] at hnodup
  exact (List.nodup_append.mp hnodup).1

/-- A client connects, asks for one job and gets it. -/
def fetchOne : List (Action ℕ) :=
  [.accept, .resume 0 (.ctrl { command := .needWork, runId := some 0, jobSize := some 1 }), .comm,
    .comm, .resume 0 .sent, .comm, .resume 0 .sent, .comm]

/-- A client connects and announces the result of one job, which the server takes from
`m_runningJobs`; the coroutine then waits for the result. -/
def announceResult (i id : ℕ) : List (Action ℕ) :=
  [.accept,
    .resume i (.ctrl
      { command := .resultFollows, runId := some 1, workloadID := [id], jobSize := some 1 }),
    .comm, .comm, .comm, .comm]

/-- The server receives the result, stores it and tests whether all results are complete. -/
def receiveResult (i msg : ℕ) : List (Action ℕ) :=
  [.resume i (.result msg), .comm, .comm, .comm, .comm, .comm, .comm]

/-- One client fetches the only job, runs it and delivers the result, which is then collected. -/
def deliverOne : List (Action ℕ) :=
  [.addParam 7, .campaign] ++ fetchOne ++ announceResult 0 1 ++ receiveResult 0 8 ++ [.getDone]

theorem at_most_once_deliverOne : ∃ s, run step (init 1 0) deliverOne = some s ∧ s.returned = [0] ∧
    (s.undoneJobs.queue ++ s.runningJobs.values ++ s.doneJobs.queue ++ s.returned).Nodup :=
  ⟨_, rfl, rfl, at_most_once 1 0 _ (reachable_of_run deliverOne rfl)⟩

/-! ## No job is lost -/

/-- The job is in `m_undoneJobs`, `m_runningJobs` or `m_doneJobs`. -/
def InContainer (s : JobServer M) (j : Job) : Prop :=
  j ∈ s.undoneJobs.queue ∨ j ∈ s.runningJobs.values ∨ j ∈ s.doneJobs.queue

instance : Decidable (s.InContainer j) := inferInstanceAs (Decidable (_ ∨ _ ∨ _))

/-- Every job that was passed to `addParam` and not yet returned by `getDone` is in a container or in
the local list of a coroutine in progress. -/
def NoJobLost (s : JobServer M) : Prop :=
  ∀ j : ℕ, j < s.data.length → j ∉ s.returned → s.InContainer j ∨ j ∈ s.held

/-- **The condition under which a step loses no job**: it is not the failure to send the control
message that announces dequeued jobs, and it does not insert a job into `m_runningJobs` under a
workload ID that is taken. -/
def KeepsJobs (s : JobServer M) : Action M → Prop
  | .resume i .failed => ∀ c ∈ s.suspended[i]?, c.announces = false
  | .comm => ∀ a ∈ s.active, s.refused a = []
  | _ => True

instance : DecidablePred s.KeepsJobs
  | .resume i .failed => inferInstanceAs (Decidable (∀ c ∈ s.suspended[i]?, c.announces = false))
  | .comm => inferInstanceAs (Decidable (∀ a ∈ s.active, s.refused a = []))
  | .resume _ .sent | .resume _ (.ctrl _) | .resume _ (.result _) | .resume _ (.unparsable _)
  | .addParam _ | .setNoMoreExperiments | .campaign | .getDone | .accept => .isTrue trivial

theorem mem_jobs : j ∈ s.jobs ↔ s.InContainer j ∨ j ∈ s.returned ∨ j ∈ s.held := by
  simp only [jobs, InContainer, List.mem_append]
  tauto

/-- A step keeps all jobs iff it drops none: a coroutine that announces jobs has dequeued some. -/
theorem dropped_eq_nil_iff (hwf : s.WellFormed) : s.dropped l = [] ↔ s.KeepsJobs l := by
  cases l with
  | comm => cases ha : s.active <;> simp [dropped, KeepsJobs, ha]
  | resume i o =>
    cases o with
    | failed =>
      cases hc : s.suspended[i]? with
      | none => simp [dropped, KeepsJobs, hc]
      | some c =>
        have hc' := hwf.suspended c (List.mem_of_getElem? hc)
        cases c <;>
          simp_all [dropped, KeepsJobs, abandoned, Suspended.WellFormed, Suspended.announces]
    | _ => cases hc : s.suspended[i]? <;> simp [dropped, KeepsJobs, abandoned, hc]
  | _ => simp [dropped, KeepsJobs]

/-- As long as no job was lost, all jobs are accounted for. -/
theorem noJobLost_iff : s.NoJobLost ↔ ∀ j : ℕ, j < s.data.length → j ∈ s.jobs := by
  simp only [NoJobLost, mem_jobs]
  exact forall₂_congr fun j _ => by tauto

/-- **One step.** It keeps the jobs accounted for iff it drops none. -/
theorem step_noJobLost (h : s.Owned) (hlost : s.NoJobLost) (hs : Step s l s') :
    s'.NoJobLost ↔ s.dropped l = [] := by
  have hperm := step_jobs h.wellFormed hs
  have hlen := step_data_length hs
  rw [noJobLost_iff] at hlost ⊢
  constructor
  · intro hlost'
    -- a dropped job would be in `jobs` twice
    refine List.eq_nil_iff_forall_not_mem.mpr fun (j : ℕ) hj => ?_
    have hnodup := hperm.nodup_iff.mpr (step_owned_nodup h)
    refine (List.nodup_append.mp hnodup).2.2 j (hlost' j ?_) j hj rfl
    exact lt_length_of_mem h hs (List.mem_append_right _ hj)
  · intro hnil j hj
    rw [hnil, List.append_nil] at hperm
    refine hperm.mem_iff.mpr (List.mem_append.mpr ?_)
    by_cases hlt : j < s.data.length
    · exact .inl (hlost j hlt)
    · cases hadd : s.added l with
      | nil =>
        rw [hadd, List.length_nil] at hlen
        omega
      | cons x xs =>
        have hx := eq_of_mem_added (s := s) (l := l) (j := x) (by simp [hadd])
        rw [hx.2, List.length_singleton] at hlen
        rw [← hadd, hx.2]
        obtain rfl : j = s.data.length := by omega
        exact .inr (List.mem_singleton_self _)

/-- The local list of the coroutine that acts, and the suspended coroutines besides it. -/
def acting (s : JobServer M) : Action M → Option (List Job × List Suspended)
  | .comm => s.active.map fun a => (a.held, s.suspended)
  | .resume i _ => s.suspended[i]?.map fun c => (c.held, s.suspended.eraseIdx i)
  | _ => none

/-- The local lists are that of the acting coroutine and those of the others. -/
theorem held_perm_acting {js : List Job} {cs : List Suspended} (hacting : s.acting l = some (js, cs))
    (hs : Step s l s') : s.held.Perm (js ++ cs.flatMap Suspended.held) := by
  cases hs with
  | comm ha =>
    simp only [acting, ha, Option.map_some, Option.some.injEq, Prod.mk.injEq] at hacting
    obtain ⟨rfl, rfl⟩ := hacting
    rw [held, ha, Option.elim_some]
  | resume hidle hc =>
    simp only [acting, hc, Option.map_some, Option.some.injEq, Prod.mk.injEq] at hacting
    obtain ⟨rfl, rfl⟩ := hacting
    rw [held, hidle, Option.elim_none, List.nil_append]
    exact (perm_eraseIdx hc).flatMap_right Suspended.held
  | _ => simp [acting] at hacting

/-- Coroutines do not touch what `getDone` has returned. -/
theorem step_returned_of_acting {js : List Job} {cs : List Suspended}
    (hacting : s.acting l = some (js, cs)) (hs : Step s l s') : s'.returned = s.returned := by
  cases hs with
  | comm _ h => exact (commStep_frame h).returned
  | resume _ _ h => exact (resumeStep_frame h).returned
  | _ => simp [acting] at hacting

/-- **A coroutine that ends without dropping a job has put all it held into the containers.** -/
theorem inContainer_of_ends {js : List Job} {cs : List Suspended} (h : s.Owned)
    (hacting : s.acting l = some (js, cs)) (hs : Step s l s') (hkeep : s.dropped l = [])
    (hactive : s'.active = none) (hsusp : s'.suspended = cs) : ∀ j ∈ js, s'.InContainer j := by
  intro j hj
  have hheld := held_perm_acting hacting hs
  have hj_held : j ∈ s.held := hheld.mem_iff.mpr (List.mem_append_left _ hj)
  have hnodup := h.nodup
  rw [jobs] at hnodup
  obtain ⟨-, hnodup_held, hdisjoint⟩ := List.nodup_append.mp hnodup
  have hmem : j ∈ s'.jobs := by
    have hperm := step_jobs h.wellFormed hs
    rw [hkeep, List.append_nil] at hperm
    exact hperm.mem_iff.mpr (List.mem_append_left _ (mem_jobs.mpr (.inr (.inr hj_held))))
  -- nobody else holds it, and it was not returned
  have hother : j ∉ s'.held := by
    rw [held, hactive, hsusp, Option.elim_none, List.nil_append]
    intro hj'
    exact (List.nodup_append.mp (hheld.nodup_iff.mp hnodup_held)).2.2 j hj j hj' rfl
  have hreturned : j ∉ s'.returned := by
    rw [step_returned_of_acting hacting hs]
    exact fun hj' => hdisjoint j (List.mem_append_right _ hj') j hj_held rfl
  exact (mem_jobs.mp hmem).resolve_right (by tauto)

/-- Along a run that keeps jobs, all jobs stay accounted for. -/
theorem noJobLost_of_reachable {runid capacity : ℕ}
    (h : ReachableBy step KeepsJobs (init runid capacity) s) : s.NoJobLost := by
  have hinv : s.Owned ∧ s.NoJobLost := by
    refine h.invariant (I := fun t => t.Owned ∧ t.NoJobLost)
      ⟨owned_init runid capacity, by simp [NoJobLost, init]⟩ ?_
    rintro t l t' ⟨howned, hlost⟩ hkeep hstep
    have hs := step_cases hstep
    refine ⟨step_owned howned hs, (step_noJobLost howned hlost hs).mpr ?_⟩
    exact (dropped_eq_nil_iff howned.wellFormed).mpr hkeep
  exact hinv.2

/-- **When jobs are lost.** In every run whose steps all satisfy `KeepsJobs`, every job that was added
and not returned is in a container or a local list in every state reached, and a coroutine that ends
has put the jobs it held into the containers. Any other step from such a state loses a job. -/
theorem no_job_lost (runid capacity : ℕ) :
    (∀ s : JobServer M, ReachableBy step KeepsJobs (init runid capacity) s → s.NoJobLost ∧
      ∀ l s' js cs, s.KeepsJobs l → s.step l = some s' → s.acting l = some (js, cs) →
        s'.active = none → s'.suspended = cs → ∀ j ∈ js, s'.InContainer j) ∧
    (∀ (s : JobServer M) l s', ReachableBy step KeepsJobs (init runid capacity) s →
      s.step l = some s' → ¬ s.KeepsJobs l → ¬ s'.NoJobLost) := by
  constructor
  · intro s h
    refine ⟨noJobLost_of_reachable h, fun l s' js cs hkeep hstep hacting => ?_⟩
    have howned := owned_of_reachable h
    exact inContainer_of_ends howned hacting (step_cases hstep)
      ((dropped_eq_nil_iff howned.wellFormed).mpr hkeep)
  · intro s l s' h hstep hdrop hlost'
    have howned := owned_of_reachable h
    refine hdrop ((dropped_eq_nil_iff howned.wellFormed).mp ?_)
    exact (step_noJobLost howned (noJobLost_of_reachable h) (step_cases hstep)).mp hlost'

theorem no_job_lost_deliverOne : ∃ s, runBy step (fun s l => decide (s.KeepsJobs l)) (init 1 0)
    deliverOne = some s ∧ s.data.length = 1 ∧ s.NoJobLost :=
  ⟨_, rfl, rfl, ((no_job_lost 1 0).1 _ (reachableBy_of_runBy deliverOne rfl)).1⟩

/-- A client asks for work and disconnects: the control message fails, the coroutine ends, and the job
it had dequeued is nowhere. -/
theorem failed_announcement_loses_job : ∃ s, run step (init 1 0 : JobServer ℕ)
    [.addParam 7, .campaign, .accept,
      .resume 0 (.ctrl { command := .needWork, runId := some 0, jobSize := some 1 }), .comm, .comm,
      .resume 0 .failed] = some s ∧
    s.active = none ∧ s.suspended = [] ∧ s.data.length = 1 ∧ ¬ s.NoJobLost := by
  refine ⟨_, rfl, rfl, rfl, rfl, fun h => ?_⟩
  exact absurd (h 0 (by decide) (by decide)) (by decide)

end JobServer

end FailStar
