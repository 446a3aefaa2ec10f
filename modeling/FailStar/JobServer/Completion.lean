import FailStar.JobServer.Delivery

/-! # Completion: when `getDone` returns `NULL`

`m_doneJobs` is marked finished by whichever of two tests sees no undone and no running job: the one at
the end of `receiveExperimentResults` and the one in `setNoMoreExperiments`.

* **`completion_noticed`** — the mark is never forgotten.
* **`null_after_all_returned`** — it is set too early exactly when a test sees empty containers while a
  coroutine holds a job: `m_CommMutex` protects the tests, not the transfers. -/

namespace FailStar

/-- The active coroutine is about to test whether all results are complete. -/
def Active.completing : Active → Bool
  | .put _ | .testUndone | .testRunning => true
  | _ => false

/-- The campaign thread has set `noMoreExps` and not yet left `setNoMoreExperiments`. -/
def Campaign.flagged {M : Type*} : Campaign M → Bool
  | .testUndone | .testRunning | .finish => true
  | _ => false

namespace JobServer

variable {M : Type*} {s s' : JobServer M} {l : Action M} {j : ℕ}

/-! ## Collected and outstanding jobs -/

/-- The jobs that reached `m_doneJobs`, whether or not they were fetched. -/
def collected (s : JobServer M) : List Job := s.doneJobs.queue ++ s.returned

/-- The jobs that did not reach `m_doneJobs` yet. -/
def outstanding (s : JobServer M) : List Job :=
  s.undoneJobs.queue ++ s.runningJobs.values ++ s.held

theorem jobs_perm : s.jobs.Perm (s.collected ++ s.outstanding) := by
  refine List.perm_iff_count.mpr fun j => ?_
  simp only [jobs, collected, outstanding, List.count_append]
  omega

theorem step_collected (hs : Step s l s') : s.collected.count j ≤ s'.collected.count j := by
  cases hs with
  | campaign _ h =>
    have hframe := campaignStep_frame h
    rw [collected, collected, hframe.results, hframe.returned]
  | getDone hq =>
    simp only [collected, hq, List.count_append, List.count_cons, List.count_nil]
    omega
  | resume _ _ h =>
    have hframe := resumeStep_frame h
    rw [collected, collected, hframe.doneJobs, hframe.returned]
  | comm _ h =>
    rw [collected, collected, (commStep_frame h).returned, List.count_append, List.count_append]
    refine Nat.add_le_add_right ?_ _
    cases h <;> simp [next, suspend, finish, unlockComm, setWorkloadID, sendLoop_eq,
      SynchronizedQueue.setIsFinished]
  | _ => exact le_rfl

/-- **No collected job becomes outstanding again**: only `addParam` adds an outstanding job. -/
theorem step_outstanding (hwf : s.WellFormed) (hs : Step s l s') :
    s'.outstanding.count j ≤ s.outstanding.count j + (s.added l).count j := by
  have hjobs := (step_jobs hwf hs).count_eq j
  have hcollected := step_collected (j := j) hs
  rw [List.count_append, List.count_append, jobs_perm.count_eq, jobs_perm.count_eq,
    List.count_append, List.count_append] at hjobs
  omega

theorem step_outstanding_eq_nil (hwf : s.WellFormed) (hs : Step s l s') (hadd : s.added l = [])
    (h : s.outstanding = []) : s'.outstanding = [] := by
  refine List.eq_nil_iff_forall_not_mem.mpr fun j => List.count_eq_zero.mp ?_
  have := step_outstanding (j := j) hwf hs
  rw [h, hadd] at this
  simpa using this

theorem outstanding_eq_nil (h : s.Owned) (hall : ∀ j : ℕ, j < s.data.length → j ∈ s.collected) :
    s.outstanding = [] := by
  refine List.eq_nil_iff_forall_not_mem.mpr fun j hj => ?_
  have hnodup := List.nodup_append.mp (jobs_perm.nodup_iff.mp h.nodup)
  have hlt := h.lt_length j (jobs_perm.mem_iff.mpr (List.mem_append_right _ hj))
  exact hnodup.2.2 j (hall j hlt) j hj rfl

/-! ## The mark is not forgotten -/

/-- **Completion is noticed or about to be noticed**: once `setNoMoreExperiments` has returned and all
jobs are collected, `m_doneJobs` is finished or the active coroutine is on its way to the test. -/
structure Noticed (s : JobServer M) : Prop where
  owned : s.Owned
  flag : s.campaign.flagged = true → s.noMoreExps = true
  noMoreReturned : s.noMoreReturned = true → s.noMoreExps = true
  noticed : s.noMoreReturned = true → (∀ j : ℕ, j < s.data.length → j ∈ s.collected) →
    s.doneJobs.finished = true ∨ s.active.any Active.completing = true

theorem noticed_init (runid capacity : ℕ) : (init runid capacity : JobServer M).Noticed :=
  ⟨owned_init runid capacity, by simp [init, Campaign.flagged], by simp [init], by simp [init]⟩

theorem undone_eq_nil (h : s.outstanding = []) : s.undoneJobs.queue = [] := by
  simp only [outstanding, List.append_eq_nil_iff] at h
  exact h.1.1

theorem running_eq_nil (h : s.outstanding = []) : s.runningJobs.values = [] := by
  simp only [outstanding, List.append_eq_nil_iff] at h
  exact h.1.2

theorem held_eq_nil (h : s.outstanding = []) : s.held = [] := by
  simp only [outstanding, List.append_eq_nil_iff] at h
  exact h.2

theorem commStep_noticed {a : Active} (h : s.Noticed) (ha : s.active = some a) (hs : CommStep s a s')
    (hret : s.noMoreReturned = true) (hout : s'.outstanding = [])
    (hcollected : ¬ a.completing → s.doneJobs.finished = true) :
    s'.doneJobs.finished = true ∨ s'.active.any Active.completing = true := by
  have hmore := h.noMoreReturned hret
  cases hs with
  | stored | putDone | putRunning | testUndone => exact .inr rfl
  | complete => exact .inl rfl
  | undoneLeft hsize => exact absurd (undone_eq_nil hout) (SynchronizedQueue.queue_ne_nil_of_size hsize)
  | incomplete hleft =>
    have hsize : s.runningJobs.size ≠ 0 := fun hsize => hleft ⟨hmore, hsize⟩
    exact absurd (running_eq_nil hout) (SynchronizedMap.values_ne_nil_of_size hsize)
  | lock hl => cases hl <;> exact .inl (hcollected (by simp [Active.completing]))
  | insertRunning =>
    rw [sendLoop_eq]
    exact .inl (hcollected (by simp [Active.completing]))
  | _ => exact .inl (hcollected (by simp [Active.completing]))

theorem campaignStep_noticed {c : Campaign M} (h : s.Noticed) (hs : CampaignStep s c s')
    (hret : s'.noMoreReturned = true) (howned : s'.Owned)
    (hall : ∀ j : ℕ, j < s'.data.length → j ∈ s'.collected) :
    s'.doneJobs.finished = true ∨ s'.active.any Active.completing = true := by
  have hout := outstanding_eq_nil howned hall
  cases hs with
  | enqueue => exact absurd (undone_eq_nil hout) (by simp)
  | undoneLeft hsize => exact absurd (undone_eq_nil hout) (SynchronizedQueue.queue_ne_nil_of_size hsize)
  | runningLeft hsize => exact absurd (running_eq_nil hout) (SynchronizedMap.values_ne_nil_of_size hsize)
  | finish => exact .inl rfl
  | lock | setFlag | testUndone | testRunning => exact h.noticed hret hall

theorem commStep_doneJobs {a : Active} (hs : CommStep s a s') (ha : ¬ a.completing) :
    s'.doneJobs = s.doneJobs := by
  cases hs with
  | putDone | complete => exact absurd rfl ha
  | insertRunning => rw [sendLoop_eq]
  | _ => rfl

/-- **A step does not forget the mark.** -/
theorem step_noticed (h : s.Noticed) (hs : Step s l s') : s'.Noticed := by
  have howned := step_owned h.owned hs
  cases hs with
  | addParam | setNoMoreExperiments =>
    exact ⟨howned, by simp [Campaign.flagged], h.noMoreReturned, h.noticed⟩
  | getNull | accept => exact ⟨howned, h.flag, h.noMoreReturned, h.noticed⟩
  | getDone hq =>
    refine ⟨howned, h.flag, h.noMoreReturned, fun hret hall => ?_⟩
    refine h.noticed hret fun j hj => ?_
    have := hall j hj
    simp only [collected, hq, List.mem_append, List.mem_cons, List.not_mem_nil] at this ⊢
    tauto
  | campaign hc hs =>
    refine ⟨howned, ?_, ?_, fun hret hall => campaignStep_noticed h hs hret howned hall⟩
    · cases hs <;> simp_all [Campaign.flagged, returnNoMore, h.flag]
    · have hflag := h.flag
      cases hs <;> simp_all [Campaign.flagged, returnNoMore, h.noMoreReturned]
  | @resume i c o t hidle hc hs =>
    have hframe := resumeStep_frame hs
    refine ⟨howned, ?_, ?_, fun hret hall => .inl ?_⟩
    · rw [hframe.campaign, hframe.noMoreExps]
      exact h.flag
    · rw [hframe.noMoreReturned, hframe.noMoreExps]
      exact h.noMoreReturned
    · rw [hframe.noMoreReturned] at hret
      rw [collected, hframe.length, hframe.doneJobs, hframe.returned] at hall
      rw [hframe.doneJobs]
      exact (h.noticed hret hall).resolve_right (by simp [hidle])
  | @comm a t ha hs =>
    have hframe := commStep_frame hs
    refine ⟨howned, ?_, ?_, fun hret hall => ?_⟩
    · rw [hframe.campaign, hframe.noMoreExps]
      exact h.flag
    · rw [hframe.noMoreReturned, hframe.noMoreExps]
      exact h.noMoreReturned
    · rw [hframe.noMoreReturned] at hret
      refine commStep_noticed h ha hs hret (outstanding_eq_nil howned hall) fun hleft => ?_
      rw [collected, hframe.length, commStep_doneJobs hs hleft, hframe.returned] at hall
      exact (h.noticed hret hall).resolve_right (by simpa [ha] using hleft)

/-- **Fetching the remaining results.** Once `m_doneJobs` is finished, as many calls of `getDone` as it
has entries empty it, and the next call returns `NULL`. -/
theorem run_getDone (hfin : s.doneJobs.finished = true) :
    ∃ t, run step s (List.replicate s.doneJobs.queue.length .getDone) = some t ∧
      t.getDone = some (none, t) := by
  generalize hq : s.doneJobs.queue = queue
  induction queue generalizing s with
  | nil =>
    refine ⟨s, rfl, ?_⟩
    rw [getDone, SynchronizedQueue.dequeue_eq_default.mpr ⟨hq, hfin, rfl⟩]
    rfl
  | cons exp queue ih =>
    have hstep : s.step .getDone = some { s with
        doneJobs := { s.doneJobs with queue }, returned := s.returned ++ [exp] } := by
      simp [step, getDone, SynchronizedQueue.dequeue, hq]
    obtain ⟨t, hrun, hnull⟩ := ih (s := { s with
      doneJobs := { s.doneJobs with queue }, returned := s.returned ++ [exp] }) hfin rfl
    refine ⟨t, ?_, hnull⟩
    rw [List.length_cons, List.replicate_succ, run, runBy, hstep]
    exact hrun

/-- **A finished campaign is noticed.** In every reachable state in which `setNoMoreExperiments` has
returned, no coroutine is active and every job was enqueued into `m_doneJobs`, the queue is marked
finished: `getDone` returns the remaining results and then `NULL`. -/
theorem completion_noticed (runid capacity : ℕ) (s : JobServer M)
    (h : Reachable step (init runid capacity) s) (hret : s.noMoreReturned = true)
    (hactive : s.active = none) (hall : ∀ j < s.data.length, j ∈ s.doneJobs.queue ++ s.returned) :
    s.doneJobs.finished = true ∧
      ∃ t, run step s (List.replicate s.doneJobs.queue.length .getDone) = some t ∧
        t.getDone = some (none, t) := by
  have hinv : s.Noticed :=
    h.invariant (noticed_init runid capacity) fun _ _ _ hs _ hstep => step_noticed hs (step_cases hstep)
  have hfin := (hinv.noticed hret hall).resolve_right (by simp [hactive])
  exact ⟨hfin, run_getDone hfin⟩

/-- The campaign ends before the only job is fetched; a client runs it and delivers the result. -/
def finishOne : List (Action ℕ) :=
  [.addParam 7, .campaign, .setNoMoreExperiments, .campaign, .campaign, .campaign] ++ fetchOne ++
    announceResult 0 1 ++ receiveResult 0 8

theorem completion_noticed_finishOne : ∃ s, run step (init 1 0) finishOne = some s ∧
    s.doneJobs.queue = [0] ∧ s.doneJobs.finished = true :=
  ⟨_, rfl, rfl, (completion_noticed 1 0 _ (reachable_of_run finishOne rfl) rfl rfl (by decide)).1⟩

/-! ## The mark is not set too early -/

/-- All `addParam` calls precede `setNoMoreExperiments`. -/
def AddsFirst (s : JobServer M) : Action M → Prop
  | .addParam _ => s.noMoreExps = false
  | _ => True

/-- When both containers are empty, no coroutine holds a job. -/
def Settled (s : JobServer M) : Prop :=
  s.undoneJobs.queue = [] → s.runningJobs.values = [] → s.held = []

/-- `Size()` does not overflow. -/
def Fits (s : JobServer M) : Prop :=
  s.undoneJobs.queue.length < 2 ^ 32 ∧ s.runningJobs.values.length < 2 ^ 32

/-- The two tests start in settled states only. -/
def TestsSettled (s : JobServer M) : Action M → Prop
  | .comm => s.active = some .testUndone → s.noMoreExps = true → s.Settled
  | .campaign => s.campaign = .testUndone → s.Settled
  | _ => True

/-- **The condition under which the mark is set last**: no job is lost, `Size()` does not overflow, and
whenever one of the two tests starts and finds both containers empty, no coroutine holds a job. -/
def MarksLast (s : JobServer M) (l : Action M) : Prop :=
  s.KeepsJobs l ∧ s.Fits ∧ s.TestsSettled l

instance : DecidablePred s.AddsFirst
  | .addParam _ => inferInstanceAs (Decidable (s.noMoreExps = false))
  | .setNoMoreExperiments | .campaign | .getDone | .accept | .resume _ _ | .comm => .isTrue trivial

instance : Decidable s.Settled := inferInstanceAs (Decidable (_ → _ → _))

instance : Decidable s.Fits := inferInstanceAs (Decidable (_ ∧ _))

instance [DecidableEq M] : DecidablePred s.TestsSettled
  | .comm => inferInstanceAs (Decidable (_ → _ → _))
  | .campaign => inferInstanceAs (Decidable (_ → _))
  | .addParam _ | .setNoMoreExperiments | .getDone | .accept | .resume _ _ => .isTrue trivial

instance [DecidableEq M] : DecidablePred s.MarksLast :=
  fun _ => inferInstanceAs (Decidable (_ ∧ _ ∧ _))

/-- **The completion invariant**: behind a successful test nothing is outstanding. -/
structure Complete (s : JobServer M) : Prop where
  owned : s.Owned
  kept : s.NoJobLost
  exclusive : s.Exclusive
  adding : s.noMoreExps = true → ∀ params, s.campaign ≠ .enqueue params
  flag : s.campaign.flagged = true → s.noMoreExps = true
  finished : s.doneJobs.finished = true → s.noMoreExps = true ∧ s.outstanding = []
  testing : s.campaign = .testRunning → s.runningJobs.values ≠ [] ∨ s.outstanding = []
  finishing : s.campaign = .finish → s.outstanding = []
  active : s.active = some .testRunning → s.noMoreExps = true →
    s.runningJobs.values ≠ [] ∨ s.outstanding = []

theorem complete_init (runid capacity : ℕ) : (init runid capacity : JobServer M).Complete where
  owned := owned_init runid capacity
  kept := by simp [NoJobLost, init]
  exclusive := exclusive_init runid capacity
  adding := by simp [init]
  flag := by simp [init, Campaign.flagged]
  finished := by simp [init]
  testing := by simp [init]
  finishing := by simp [init]
  active := by simp [init]

/-- After `noMoreExps` was set, nothing becomes outstanding. -/
theorem Complete.outstanding_eq_nil (h : s.Complete) (hs : Step s l s') (hmore : s.noMoreExps = true)
    (hout : s.outstanding = []) : s'.outstanding = [] := by
  refine step_outstanding_eq_nil h.owned.wellFormed hs ?_ hout
  cases l with
  | campaign =>
    rw [added]
    cases hc : s.campaign with
    | enqueue params => exact absurd hc (h.adding hmore params)
    | _ => rfl
  | _ => rfl

/-- A test that starts in a settled state either sees a running job or nothing is outstanding. -/
theorem Settled.test (h : s.Settled) (hundone : s.undoneJobs.queue = []) :
    s.runningJobs.values ≠ [] ∨ s.outstanding = [] := by
  by_cases hrunning : s.runningJobs.values = []
  · refine .inr ?_
    rw [outstanding, hundone, hrunning, h hundone hrunning]
    rfl
  · exact .inl hrunning

theorem commStep_running {a : Active} (hs : CommStep s a s') (ha : ¬ a.critical)
    (hrunning : s.runningJobs.values ≠ []) : s'.runningJobs.values ≠ [] := by
  cases hs with
  | @insertRunning ctrlmsg i front exp =>
    rw [sendLoop_eq]
    obtain ⟨j, hj⟩ := List.exists_mem_of_ne_nil _ hrunning
    exact List.ne_nil_of_mem (SynchronizedMap.mem_values_insert _ front hj)
  | remove | putRunning | pick | pickNone => exact absurd rfl ha
  | _ => exact hrunning

/-- The invariants on which completion rests. -/
theorem Complete.base_step (h : s.Complete) (hs : Step s l s') (hkeep : s.KeepsJobs l) :
    s'.Owned ∧ s'.NoJobLost ∧ s'.Exclusive := by
  have hdropped := (dropped_eq_nil_iff h.owned.wellFormed).mpr hkeep
  exact ⟨step_owned h.owned hs, (step_noJobLost h.owned h.kept hs).mpr hdropped,
    step_exclusive h.exclusive hs⟩

/-- A mark that was set before the step stays right. -/
theorem Complete.finished_step (h : s.Complete) (hs : Step s l s') (hfin : s.doneJobs.finished = true) :
    s.noMoreExps = true ∧ s'.outstanding = [] := by
  obtain ⟨hmore, hout⟩ := h.finished hfin
  exact ⟨hmore, h.outstanding_eq_nil hs hmore hout⟩

/-- While the campaign thread is between its two tests, what they have seen stays right. -/
theorem Complete.testing_step (h : s.Complete) (hs : Step s l s') (hc : s.campaign = .testRunning)
    (hrunning : s.runningJobs.values ≠ [] → s'.runningJobs.values ≠ []) :
    s'.runningJobs.values ≠ [] ∨ s'.outstanding = [] := by
  have hmore := h.flag (by rw [hc]; rfl)
  exact (h.testing hc).imp hrunning (h.outstanding_eq_nil hs hmore)

/-- Nothing is outstanding while the campaign thread sets the mark. -/
theorem Complete.finishing_step (h : s.Complete) (hs : Step s l s') (hc : s.campaign = .finish) :
    s'.outstanding = [] :=
  h.outstanding_eq_nil hs (h.flag (by rw [hc]; rfl)) (h.finishing hc)

/-- A coroutine sets the mark behind a test that saw no running job. -/
theorem Complete.commStep_finished {a : Active} (h : s.Complete) (ha : s.active = some a)
    (hs : CommStep s a s') (hfits : s.Fits) (hfin : s'.doneJobs.finished = true) :
    s.noMoreExps = true ∧ s'.outstanding = [] := by
  have hstep : Step s .comm s' := .comm ha hs
  cases hs with
  | complete hmore hsize =>
    have hnil := (SynchronizedMap.size_eq_zero hfits.2).mp hsize
    have hout := (h.active ha hmore).resolve_left (not_not_intro hnil)
    exact ⟨hmore, h.outstanding_eq_nil hstep hmore hout⟩
  | insertRunning =>
    rw [sendLoop_eq] at hfin
    exact h.finished_step hstep hfin
  | _ => exact h.finished_step hstep hfin

/-- A coroutine that goes on to its second test has seen an empty `m_undoneJobs`. -/
theorem Complete.commStep_active {a : Active} (h : s.Complete) (ha : s.active = some a)
    (hs : CommStep s a s') (hok : s.MarksLast .comm) (hactive : s'.active = some .testRunning)
    (hmore : s.noMoreExps = true) : s'.runningJobs.values ≠ [] ∨ s'.outstanding = [] := by
  have hstep : Step s .comm s' := .comm ha hs
  obtain ⟨-, hfits, hsettled⟩ := hok
  cases hs with
  | testUndone hsize =>
    have hnil := (SynchronizedQueue.size_eq_zero hfits.1).mp hsize
    exact ((hsettled ha hmore).test hnil).imp id (h.outstanding_eq_nil hstep hmore)
  | lock hl => cases hl <;> cases hactive
  | insertRunning =>
    rw [sendLoop_eq] at hactive
    split at hactive <;> cases hactive
  | _ => cases hactive

/-- **The active coroutine keeps the completion invariant.** -/
theorem commStep_complete {a : Active} (h : s.Complete) (ha : s.active = some a)
    (hs : CommStep s a s') (hok : s.MarksLast .comm) : s'.Complete := by
  have hstep : Step s .comm s' := .comm ha hs
  have hframe := commStep_frame hs
  obtain ⟨howned, hkept, hexclusive⟩ := h.base_step hstep hok.1
  refine ⟨howned, hkept, hexclusive, ?_, ?_, ?_, ?_, ?_, ?_⟩
  · rw [hframe.noMoreExps, hframe.campaign]
    exact h.adding
  · rw [hframe.noMoreExps, hframe.campaign]
    exact h.flag
  · rw [hframe.noMoreExps]
    exact h.commStep_finished ha hs hok.2.1
  · rw [hframe.campaign]
    intro hc
    -- the campaign thread holds the mutex between its tests, so the coroutine does not
    have hcritical : ¬ a.critical := by
      intro hcritical
      have hboth := h.exclusive.not_both (by simpa [ha] using hcritical)
      rw [hc] at hboth
      exact absurd hboth (by simp [Campaign.critical])
    exact h.testing_step hstep hc (commStep_running hs hcritical)
  · rw [hframe.campaign]
    exact h.finishing_step hstep
  · rw [hframe.noMoreExps]
    exact h.commStep_active ha hs hok

/-- `setNoMoreExperiments` sets the mark behind its two tests. -/
theorem Complete.campaignStep_finished {c : Campaign M} (h : s.Complete) (hc : s.campaign = c)
    (hs : CampaignStep s c s') (hfin : s'.doneJobs.finished = true) :
    s'.noMoreExps = true ∧ s'.outstanding = [] := by
  have hstep : Step s .campaign s' := .campaign hc hs
  cases hs with
  | finish => exact ⟨h.flag (by rw [hc]; rfl), h.finishing_step hstep hc⟩
  | setFlag => exact ⟨rfl, (h.finished_step hstep hfin).2⟩
  | _ => exact h.finished_step hstep hfin

/-- **The campaign thread keeps the completion invariant.** -/
theorem campaignStep_complete {c : Campaign M} (h : s.Complete) (hc : s.campaign = c)
    (hs : CampaignStep s c s') (hok : s.MarksLast .campaign) : s'.Complete := by
  have hstep : Step s .campaign s' := .campaign hc hs
  have hframe := campaignStep_frame hs
  have hout := h.outstanding_eq_nil hstep
  have hflag := h.flag
  rw [hc] at hflag
  obtain ⟨howned, hkept, hexclusive⟩ := h.base_step hstep hok.1
  obtain ⟨-, ⟨hundone, hrunning⟩, hsettled⟩ := hok
  refine ⟨howned, hkept, hexclusive, fun _ params => ?_, ?_, h.campaignStep_finished hc hs, ?_, ?_, ?_⟩
  · cases hs <;> simp [returnNoMore]
  · cases hs <;> simp_all [returnNoMore, Campaign.flagged]
  · intro hc'
    cases hs with
    | testUndone hsize =>
      have hnil := (SynchronizedQueue.size_eq_zero hundone).mp hsize
      exact ((hsettled hc).test hnil).imp id (hout (hflag rfl))
    | _ => cases hc'
  · intro hc'
    cases hs with
    | testRunning hsize =>
      have hnil := (SynchronizedMap.size_eq_zero hrunning).mp hsize
      exact hout (hflag rfl) ((h.testing hc).resolve_left (not_not_intro hnil))
    | _ => cases hc'
  · -- the flag is not set while a coroutine is in its critical section
    rw [hframe.active, hframe.runningJobs]
    intro hactive hmore
    have hcritical := h.exclusive.not_both (by simp [hactive, Active.critical])
    have hmore' : s.noMoreExps = true := by
      cases hs with
      | setFlag => simp [hc, Campaign.critical] at hcritical
      | _ => exact hmore
    exact (h.active hactive hmore').imp id (hout hmore')

/-- A resumed coroutine does not stand at its second test. -/
theorem resumeStep_active_ne {c : Suspended} {o : Outcome M} (hidle : s.active = none)
    (hs : ResumeStep s c o s') : s'.active ≠ some .testRunning := by
  intro hactive
  cases hs with
  | announced =>
    rw [sendLoop_eq] at hactive
    split at hactive <;> cases hactive
  | helloFailed | died | announceFailed | resendEnds | resent =>
    rw [hidle] at hactive
    cases hactive
  | _ => cases hactive

/-- **A step keeps the completion invariant.** -/
theorem step_complete (h : s.Complete) (hs : Step s l s') (hadds : s.AddsFirst l)
    (hok : s.MarksLast l) : s'.Complete := by
  obtain ⟨howned, hkept, hexclusive⟩ := h.base_step hs hok.1
  have hout := h.outstanding_eq_nil hs
  have hfinished := h.finished_step hs
  have hfinishing := h.finishing_step hs
  cases hs with
  | campaign hc hs => exact campaignStep_complete h hc hs hok
  | comm ha hs => exact commStep_complete h ha hs hok
  | addParam =>
    have hmore : s.noMoreExps = false := hadds
    exact ⟨howned, hkept, hexclusive, by simp [hmore], by simp [Campaign.flagged], h.finished,
      by simp, by simp, h.active⟩
  | setNoMoreExperiments =>
    exact ⟨howned, hkept, hexclusive, by simp, by simp [Campaign.flagged], h.finished, by simp,
      by simp, h.active⟩
  | getDone | getNull | accept =>
    exact ⟨howned, hkept, hexclusive, h.adding, h.flag, hfinished,
      fun hc => (h.testing hc).imp id (hout (h.flag (by rw [hc]; rfl))), hfinishing,
      fun ha hmore => (h.active ha hmore).imp id (hout hmore)⟩
  | @resume i c o t hidle hc hs =>
    have hframe := resumeStep_frame hs
    refine ⟨howned, hkept, hexclusive, ?_, ?_, ?_, ?_, ?_, ?_⟩
    · rw [hframe.noMoreExps, hframe.campaign]
      exact h.adding
    · rw [hframe.noMoreExps, hframe.campaign]
      exact h.flag
    · rw [hframe.doneJobs, hframe.noMoreExps]
      exact hfinished
    · rw [hframe.campaign, hframe.runningJobs]
      intro hcampaign
      exact (h.testing hcampaign).imp id (hout (h.flag (by rw [hcampaign]; rfl)))
    · rw [hframe.campaign]
      exact hfinishing
    · intro hactive
      exact absurd hactive (resumeStep_active_ne (s := { s with suspended := s.suspended.eraseIdx i }) hidle hs)

theorem running_size_eq_zero (h : s.runningJobs.values = []) : s.runningJobs.size = 0 := by
  by_contra hsize
  exact SynchronizedMap.values_ne_nil_of_size hsize h

theorem undone_size_eq_zero (h : s.undoneJobs.queue = []) : s.undoneJobs.size = 0 := by
  by_contra hsize
  exact SynchronizedQueue.queue_ne_nil_of_size hsize h

/-- A test of the active coroutine that does not start in a settled state marks too early. -/
theorem comm_marks_early (hsettled : ¬ s.Settled) (ha : s.active = some .testUndone)
    (hmore : s.noMoreExps = true) :
    ∃ t, run step s [.comm, .comm] = some t ∧ t.doneJobs.finished = true ∧ t.held ≠ [] := by
  simp only [Settled, Classical.not_imp] at hsettled
  obtain ⟨hundone, hrunning, hheld⟩ := hsettled
  refine ⟨{ s with doneJobs := s.doneJobs.setIsFinished }.unlockComm.finish, ?_, rfl, ?_⟩
  · simp [run, runBy, step, ha, commStep, undone_size_eq_zero hundone, next, hmore,
      running_size_eq_zero hrunning, unlockComm, finish]
  · rw [held, ha] at hheld
    exact hheld

/-- A test of the campaign thread that does not start in a settled state may mark too early. -/
theorem campaign_marks_early (hsettled : ¬ s.Settled) (hc : s.campaign = .testUndone) :
    ∃ t, run step s [.campaign, .campaign, .campaign] = some t ∧ t.doneJobs.finished = true ∧
      t.held ≠ [] := by
  simp only [Settled, Classical.not_imp] at hsettled
  obtain ⟨hundone, hrunning, hheld⟩ := hsettled
  refine ⟨{ s with doneJobs := s.doneJobs.setIsFinished }.returnNoMore, ?_, rfl, hheld⟩
  simp [run, runBy, step, hc, campaignStep, undone_size_eq_zero hundone, returnNoMore,
    running_size_eq_zero hrunning]

/-- **When `getDone` may return `NULL` too early.** Let all `addParam` calls precede
`setNoMoreExperiments`. In every run whose steps all satisfy `MarksLast`, `getDone` returns `NULL` only
after it has returned every job, and `m_doneJobs` is never marked finished while a coroutine holds a
job. A test that starts in a state that is not settled runs into a state where it is. -/
theorem null_after_all_returned (runid capacity : ℕ) :
    (∀ s : JobServer M,
      ReachableBy step (fun s l => s.AddsFirst l ∧ s.MarksLast l) (init runid capacity) s →
      (∀ t, s.getDone = some (none, t) → ∀ j < s.data.length, j ∈ s.returned) ∧
      (s.doneJobs.finished = true → s.held = [])) ∧
    (∀ s : JobServer M, ¬ s.Settled →
      (s.active = some .testUndone → s.noMoreExps = true →
        ∃ t, run step s [.comm, .comm] = some t ∧ t.doneJobs.finished = true ∧ t.held ≠ []) ∧
      (s.campaign = .testUndone →
        ∃ t, run step s [.campaign, .campaign, .campaign] = some t ∧
          t.doneJobs.finished = true ∧ t.held ≠ [])) := by
  refine ⟨fun s h => ?_, fun s hsettled =>
    ⟨comm_marks_early hsettled, campaign_marks_early hsettled⟩⟩
  have hinv : s.Complete := h.invariant (complete_init runid capacity)
    fun _ _ _ hs hok hstep => step_complete hs (step_cases hstep) hok.1 hok.2
  refine ⟨fun t hnull j hj => ?_, fun hfin => held_eq_nil (hinv.finished hfin).2⟩
  obtain ⟨exp, rest, hr, -⟩ | ⟨-, hdone, hfin, -⟩ := getDone_cases hnull
  · cases hr
  · by_contra hreturned
    have hout := (hinv.finished hfin).2
    have hlost := hinv.kept j hj hreturned
    simp [InContainer, hdone, undone_eq_nil hout, running_eq_nil hout, held_eq_nil hout] at hlost

theorem null_after_all_returned_finishOne :
    ∃ s t, runBy step (fun s l => decide (s.AddsFirst l ∧ s.MarksLast l)) (init 1 0)
      (finishOne ++ [.getDone]) = some s ∧ s.getDone = some (none, t) ∧ 0 ∈ s.returned :=
  ⟨_, _, rfl, rfl, ((null_after_all_returned 1 0).1 _
    (reachableBy_of_runBy (finishOne ++ [.getDone]) rfl)).1 _ rfl 0 (by decide)⟩

/-- Two clients announce the results of the last two jobs. While the result of job 0 is still being
received, the coroutine that has received the result of job 1 finds both containers empty: `getDone`
returns job 1, then `NULL`, and job 0 is still in the local list of the other coroutine. -/
theorem result_in_transfer_marks_early :
    ∃ s t, runBy step (fun s l => decide (s.AddsFirst l)) (init 1 0 : JobServer ℕ)
      ([.addParam 7, .campaign, .addParam 9, .campaign, .setNoMoreExperiments, .campaign, .campaign,
        .campaign] ++ fetchOne ++ fetchOne ++ announceResult 0 1 ++ announceResult 1 2 ++
        receiveResult 1 8 ++ [.getDone]) = some s ∧
      s.getDone = some (none, t) ∧ s.data.length = 2 ∧ s.returned = [1] ∧
      s.doneJobs.finished = true ∧ s.held = [0] :=
  ⟨_, _, rfl, rfl, rfl, rfl, rfl, rfl⟩

end JobServer

end FailStar
