import FailStar.JobServer.Mutex

/-! # Who owns a job

A job travels between `m_undoneJobs`, `m_runningJobs`, `m_doneJobs`, the caller of `getDone` and the
local lists of coroutines. This file accounts for it at every step.

* **`jobs`** — all places a job can be in, as one list with multiplicity.
* **`step_jobs`** — conservation: a step rearranges `jobs`, adds the object passed to `addParam`, and
  loses exactly the jobs in `dropped`. -/

namespace FailStar

/-! ## The jobs a coroutine holds -/

/-- The jobs in the local list of the active coroutine. -/
def Active.held : Active → List Job
  | .dequeue _ _ _ exp => exp
  | .sendJob _ _ exp => exp
  | .insertRunning _ _ exp => exp
  | .requeue exp => exp
  | .remove _ msgs => msgs.filterMap Prod.fst
  | .receive msgs recvd => msgs.filterMap Prod.fst ++ recvd.map Prod.fst
  | .lockPut recvd => recvd.map Prod.fst
  | .put recvd => recvd.map Prod.fst
  | _ => []

/-- The jobs in the local list of a suspended coroutine. -/
def Suspended.held : Suspended → List Job
  | .workCtrl _ exp => exp
  | .workJob _ _ exp => exp
  | .result exp _ msgs recvd => exp :: (msgs.filterMap Prod.fst ++ recvd.map Prod.fst)
  | .drop msgs recvd => msgs.filterMap Prod.fst ++ recvd.map Prod.fst
  | _ => []

/-- The loop counter of a coroutine that sends jobs agrees with the jobs it still holds. -/
def Active.WellFormed : Active → Prop
  | .sendJob ctrlmsg i exp => ctrlmsg.getJobSize = i + exp.length ∧ exp ≠ []
  | .insertRunning ctrlmsg i exp => ctrlmsg.getJobSize = i + exp.length ∧ exp ≠ []
  | _ => True

/-- The loop counter of a suspended coroutine that sends jobs agrees with the jobs it still holds. -/
def Suspended.WellFormed : Suspended → Prop
  | .workCtrl ctrlmsg exp => ctrlmsg.getJobSize = exp.length ∧ exp ≠ []
  | .workJob ctrlmsg i exp => ctrlmsg.getJobSize = i + exp.length ∧ exp ≠ []
  | _ => True

namespace JobServer

variable {M : Type*} {s s' : JobServer M} {a : Active} {l : Action M} {j : ℕ}

/-- The jobs in the local lists of all coroutines in progress. -/
def held (s : JobServer M) : List Job :=
  s.active.elim [] Active.held ++ s.suspended.flatMap Suspended.held

/-- **Everywhere a job can be**: the three containers, the caller of `getDone`, the local lists. -/
def jobs (s : JobServer M) : List Job :=
  s.undoneJobs.queue ++ s.runningJobs.values ++ s.doneJobs.queue ++ s.returned ++ s.held

/-- Every coroutine's loop counter agrees with its local list. -/
structure WellFormed (s : JobServer M) : Prop where
  active : ∀ a, s.active = some a → a.WellFormed
  suspended : ∀ c ∈ s.suspended, c.WellFormed

/-! ## Loop counters -/

theorem wellFormed_init (runid capacity : ℕ) : (init runid capacity : JobServer M).WellFormed :=
  ⟨by simp [init], by simp [init]⟩

/-- Well-formedness after a step that appends well-formed coroutines to the suspended ones. -/
theorem WellFormed.of_append (h : s.WellFormed) (cs : List Suspended)
    (hactive : ∀ a, s'.active = some a → a.WellFormed) (hsusp : s'.suspended = s.suspended ++ cs)
    (hcs : ∀ c ∈ cs, c.WellFormed) : s'.WellFormed := by
  refine ⟨hactive, fun c hc => ?_⟩
  rw [hsusp] at hc
  rcases List.mem_append.mp hc with hc | hc
  · exact h.suspended c hc
  · exact hcs c hc

theorem sendLoop_active {ctrlmsg : FailControlMessage} {i : ℕ} {exp : List Job}
    (hsize : ctrlmsg.getJobSize = i + exp.length) :
    ∀ a, (s.sendLoop ctrlmsg i exp).active = some a → a.WellFormed := by
  intro a ha
  unfold sendLoop at ha
  split at ha
  · cases ha
    refine ⟨hsize, ?_⟩
    rintro rfl
    simp only [List.length_nil] at hsize
    omega
  · exact absurd ha (by simp [finish])

theorem commStep_wellFormed (h : s.WellFormed) (ha : a.WellFormed) (hs : CommStep s a s') :
    s'.WellFormed := by
  cases hs with
  | insertRunning =>
    refine h.of_append [] (sendLoop_active ?_) (by simp [sendLoop_eq]) (by simp)
    have hsize := ha.1
    rw [List.length_cons] at hsize
    omega
  | announce hexp =>
    exact h.of_append [_] (by simp [suspend]) rfl
      (by simp [Suspended.WellFormed, FailControlMessage.getJobSize, hexp])
  | sendJob => exact h.of_append [_] (by simp [suspend]) rfl (by simpa using ⟨ha.1, ha.2⟩)
  | pick | pickNone | resend | receive | drop =>
    exact h.of_append [_] (by simp [suspend]) rfl (by simp [Suspended.WellFormed])
  | lock hl =>
    refine h.of_append [] ?_ (by simp [next]) (by simp)
    cases hl <;> simp [next, Active.WellFormed]
  | _ =>
    exact h.of_append []
      (by simp [next, finish, unlockComm, setWorkloadID, Active.WellFormed])
      (by simp [next, finish, unlockComm, setWorkloadID]) (by simp)

theorem resumeStep_wellFormed {c : Suspended} {o : Outcome M} (h : s.WellFormed)
    (hc : c.WellFormed) (hs : ResumeStep s c o s') : s'.WellFormed := by
  cases hs with
  | announced =>
    exact h.of_append [] (sendLoop_active (by simpa using hc.1)) (by simp [sendLoop_eq]) (by simp)
  | jobSent =>
    exact h.of_append [] (by simpa [next] using ⟨hc.1, hc.2⟩) (by simp [next]) (by simp)
  | helloDie =>
    exact h.of_append [_] (by simp [suspend]) rfl (by simp [Suspended.WellFormed])
  | helloFailed | died | announceFailed | resendEnds | resent => exact h
  | _ =>
    exact h.of_append [] (by simp [next, finish, Active.WellFormed])
      (by simp [next, finish, setMessage]) (by simp)

/-! ## Conservation of jobs -/

/-- The jobs the active coroutine's next step drops: a job whose insertion into `m_runningJobs` is
refused because its workload ID is taken. -/
def refused (s : JobServer M) : Active → List Job
  | .insertRunning _ _ (front :: _) =>
    if s.getWorkloadID front ∈ s.runningJobs.map then [front] else []
  | .put ((exp, id, false) :: _) => if id ∈ s.runningJobs.map then [exp] else []
  | _ => []

/-- The jobs a coroutine drops when it is resumed: all it announced, if that failed. -/
def abandoned : Suspended → Outcome M → List Job
  | .workCtrl _ exp, .failed => exp
  | _, _ => []

/-- **The jobs a step loses.** -/
def dropped (s : JobServer M) : Action M → List Job
  | .comm => s.active.elim [] s.refused
  | .resume i o => s.suspended[i]?.elim [] (abandoned · o)
  | _ => []

/-- The object the campaign thread's next step enqueues. -/
def enqueued (s : JobServer M) : Campaign M → List Job
  | .enqueue _ => [s.data.length]
  | _ => []

/-- The object a step adds: the one passed to `addParam`, when it is enqueued. -/
def added (s : JobServer M) : Action M → List Job
  | .campaign => s.enqueued s.campaign
  | _ => []

theorem count_values_insert (m : SynchronizedMap ℕ Job) (key : ℕ) (value j : Job) :
    (m.insert key value).2.values.count j + (if key ∈ m.map then [value] else []).count j
      = m.values.count j + if value = j then 1 else 0 := by
  by_cases hk : key ∈ m.map
  · obtain ⟨v, hv⟩ := Option.isSome_iff_exists.mp (Std.TreeMap.isSome_getElem?_iff_mem.mpr hk)
    rw [SynchronizedMap.insert_of_taken hv, if_pos hk, List.count_singleton]
    simp
  · have hfree : m.map[key]? = none := Std.TreeMap.getElem?_eq_none hk
    rw [(SynchronizedMap.values_insert_of_free hfree).count_eq, if_neg hk, List.count_cons]
    simp

/-- The sending loop keeps everything but the local list, which is empty when the loop ends. -/
theorem count_jobs_sendLoop {ctrlmsg : FailControlMessage} {i : ℕ} {exp : List Job}
    (hsize : ctrlmsg.getJobSize = i + exp.length) :
    (s.sendLoop ctrlmsg i exp).jobs.count j =
      s.undoneJobs.queue.count j + s.runningJobs.values.count j + s.doneJobs.queue.count j +
        s.returned.count j + (exp.count j + (s.suspended.flatMap Suspended.held).count j) := by
  unfold sendLoop
  split
  · simp only [jobs, held, next, Active.held, Option.elim_some, List.count_append]
  · obtain rfl : exp = [] := List.eq_nil_of_length_eq_zero (by omega)
    simp only [jobs, held, finish, Option.elim_none, List.count_append, List.count_nil]

attribute [local simp] jobs held next suspend finish unlockComm setWorkloadID setMessage Active.held
  Suspended.held List.count_cons

@[simp] theorem jobs_init (runid capacity : ℕ) : (init runid capacity : JobServer M).jobs = [] := rfl

/-- **Conservation, active coroutine**: its step moves jobs around, except for those it drops. -/
theorem commStep_jobs (ha : s.active = some a) (hwf : a.WellFormed) (hs : CommStep s a s') :
    (s'.jobs ++ s.refused a).Perm s.jobs := by
  refine List.perm_iff_count.mpr fun j => ?_
  rw [List.count_append]
  cases hs with
  | dequeue hi hq =>
    simp [ha, hq, refused]
    omega
  | @insertRunning ctrlmsg i front exp =>
    have hsize := hwf.1
    rw [List.length_cons] at hsize
    have hins := count_values_insert s.runningJobs (s.getWorkloadID front) front j
    rw [count_jobs_sendLoop (by omega)]
    simp [ha, refused]
    omega
  | @remove id ids msgs exp hid =>
    have hrem := (SynchronizedMap.values_remove_of_present hid).count_eq j
    rw [SynchronizedMap.remove_of_present hid] at hrem
    simp [ha, refused] at hrem ⊢
    omega
  | @putRunning exp id recvd =>
    have hins := count_values_insert s.runningJobs id exp j
    simp [ha, refused]
    omega
  | pick | pickNone => simp [ha, refused, SynchronizedMap.values]
  | lock hl => cases hl <;> simp [ha, refused]
  -- the other steps move jobs between two local lists, or between a local list and a queue
  | announce | fallback | sendJob | requeued | requeue | resend | removed | removeNone | received
    | receive | drop | stored | putDone | testUndone | undoneLeft | complete | incomplete =>
      simp [ha, refused] <;> omega

/-- **Conservation, resumed coroutine**: only a failed announcement drops jobs. -/
theorem resumeStep_jobs {c : Suspended} {o : Outcome M} (ha : s.active = none)
    (hwf : c.WellFormed) (hs : ResumeStep s c o s') :
    (s'.jobs ++ abandoned c o).Perm (s.jobs ++ c.held) := by
  refine List.perm_iff_count.mpr fun j => ?_
  rw [List.count_append, List.count_append]
  cases hs with
  | announced =>
    rw [count_jobs_sendLoop (by simpa using hwf.1)]
    simp [ha, abandoned]
    omega
  | _ => simp [ha, abandoned] <;> omega

/-- Conservation, campaign thread: only `addParam` changes the jobs. -/
theorem campaignStep_jobs {c : Campaign M} (hs : CampaignStep s c s') :
    s'.jobs.Perm (s.jobs ++ s.enqueued c) := by
  refine List.perm_iff_count.mpr fun j => ?_
  cases hs <;> simp [returnNoMore, enqueued]
  omega

theorem perm_eraseIdx {α : Type*} {l : List α} {i : ℕ} {x : α} (h : l[i]? = some x) :
    l.Perm (x :: l.eraseIdx i) := by
  obtain ⟨hi, rfl⟩ := List.getElem?_eq_some_iff.mp h
  exact (List.getElem_cons_eraseIdx_perm hi).symm

/-- **Conservation of jobs.** A step rearranges the jobs, adds what `addParam` enqueues and loses
exactly what `dropped` names. -/
theorem step_jobs (hwf : s.WellFormed) (hs : Step s l s') :
    (s'.jobs ++ s.dropped l).Perm (s.jobs ++ s.added l) := by
  cases hs with
  | campaign hc h => simpa [dropped, added, hc] using campaignStep_jobs h
  | @resume i c o t hidle hc h =>
    have hjobs := resumeStep_jobs (s := { s with suspended := s.suspended.eraseIdx i }) hidle
      (hwf.suspended c (List.mem_of_getElem? hc)) h
    have hsusp := ((perm_eraseIdx hc).flatMap_right Suspended.held)
    refine List.perm_iff_count.mpr fun j => ?_
    have hj := List.perm_iff_count.mp hjobs j
    have hj' := List.perm_iff_count.mp hsusp j
    simp [dropped, added, hidle, hc] at hj hj' ⊢
    omega
  | @comm b t ha h =>
    simpa [dropped, added, ha] using commStep_jobs ha (hwf.active b ha) h
  | getDone hq =>
    refine List.perm_iff_count.mpr fun j => ?_
    simp [hq, dropped, added]
    omega
  | _ => simp [dropped, added]

/-- Every job object was passed to `addParam`, and no step forgets one. -/
theorem step_data_length (hs : Step s l s') :
    s'.data.length = s.data.length + (s.added l).length := by
  cases hs with
  | campaign hc h => cases h <;> simp [added, hc, enqueued, returnNoMore]
  | resume _ _ h => exact (resumeStep_frame h).length
  | comm _ h => exact (commStep_frame h).length
  | _ => rfl

end JobServer

end FailStar
