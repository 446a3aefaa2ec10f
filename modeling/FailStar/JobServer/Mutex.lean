import FailStar.JobServer.Steps

/-! # What the threads leave alone

Frame conditions of the three threads, and the mutual exclusion `m_CommMutex` provides.

* **`commStep_frame`**, **`resumeStep_frame`**, **`campaignStep_frame`** — the fields a thread does not
  write.
* **`Exclusive`** — `m_CommMutex` is held by the thread inside its critical section, if any. -/

namespace FailStar

/-- The active coroutine is between taking and releasing `m_CommMutex`. -/
def Active.critical : Active → Bool
  | .pick _ | .remove _ _ | .put _ | .testUndone | .testRunning => true
  | _ => false

/-- The campaign thread is between taking and releasing `m_CommMutex`. -/
def Campaign.critical {M : Type*} : Campaign M → Bool
  | .setFlag | .testUndone | .testRunning | .finish => true
  | _ => false

namespace JobServer

variable {M : Type*} {s s' : JobServer M} {a : Active} {c : Suspended} {o : Outcome M}
  {l : Action M}

/-! ## Frames -/

/-- What the `comm_service` thread does not write. -/
structure CommFrame (s s' : JobServer M) : Prop where
  noMoreExps : s'.noMoreExps = s.noMoreExps
  campaign : s'.campaign = s.campaign
  noMoreReturned : s'.noMoreReturned = s.noMoreReturned
  returned : s'.returned = s.returned
  length : s'.data.length = s.data.length

/-- What resuming a coroutine does not write, either. -/
structure ResumeFrame (s s' : JobServer M) : Prop extends CommFrame s s' where
  undoneJobs : s'.undoneJobs = s.undoneJobs
  runningJobs : s'.runningJobs = s.runningJobs
  doneJobs : s'.doneJobs = s.doneJobs
  commMutex : s'.commMutex = s.commMutex

/-- What the campaign thread does not write inside its calls. -/
structure CampaignFrame (s s' : JobServer M) : Prop where
  runningJobs : s'.runningJobs = s.runningJobs
  results : s'.doneJobs.queue = s.doneJobs.queue
  active : s'.active = s.active
  suspended : s'.suspended = s.suspended
  returned : s'.returned = s.returned

attribute [local simp] next suspend finish unlockComm setWorkloadID setMessage sendLoop_eq

theorem commStep_frame (h : CommStep s a s') : CommFrame s s' := by
  cases h <;> constructor <;> simp

theorem resumeStep_frame (h : ResumeStep s c o s') : ResumeFrame s s' := by
  cases h <;> constructor <;> first | constructor <;> simp | simp

theorem campaignStep_frame {c : Campaign M} (h : CampaignStep s c s') : CampaignFrame s s' := by
  cases h <;> exact ⟨rfl, rfl, rfl, rfl, rfl⟩

/-! ## Mutual exclusion -/

/-- **`m_CommMutex` is held by the thread inside its critical section.** -/
structure Exclusive (s : JobServer M) : Prop where
  comm : s.commMutex = some .comm ↔ s.active.any Active.critical = true
  campaign : s.commMutex = some .campaign ↔ s.campaign.critical = true

theorem exclusive_init (runid capacity : ℕ) : (init runid capacity : JobServer M).Exclusive :=
  ⟨by simp [init], by simp [init, Campaign.critical]⟩

theorem Exclusive.not_both (h : s.Exclusive) (hcomm : s.active.any Active.critical = true) :
    s.campaign.critical = false := by
  by_contra hcampaign
  have hm := h.comm.mpr hcomm
  rw [h.campaign.mpr (by simpa using hcampaign)] at hm
  cases hm

theorem commStep_exclusive (h : s.Exclusive) (ha : s.active = some a) (hs : CommStep s a s') :
    s'.Exclusive := by
  have hcomm := h.comm
  have hcampaign := h.campaign
  rw [ha] at hcomm
  cases hs with
  | lock hl hm => cases hl <;> constructor <;> simp_all [Active.critical]
  | insertRunning =>
    refine ⟨?_, by simpa using hcampaign⟩
    rw [sendLoop_eq]
    split <;> simpa [Active.critical] using hcomm
  | _ => constructor <;> simp_all [Active.critical]

theorem resumeStep_exclusive (h : s.Exclusive) (ha : s.active = none) (hs : ResumeStep s c o s') :
    s'.Exclusive := by
  have hframe := resumeStep_frame hs
  refine ⟨?_, by rw [hframe.commMutex, hframe.campaign]; exact h.campaign⟩
  rw [hframe.commMutex, h.comm, ha]
  cases hs <;> simp [ha, Active.critical, apply_ite]

theorem campaignStep_exclusive {c : Campaign M} (h : s.Exclusive) (hc : s.campaign = c)
    (hs : CampaignStep s c s') : s'.Exclusive := by
  have hcomm := h.comm
  have hcampaign := h.campaign
  cases hs <;> constructor <;> simp_all [Campaign.critical, returnNoMore]

/-- **A step keeps mutual exclusion.** -/
theorem step_exclusive (h : s.Exclusive) (hs : Step s l s') : s'.Exclusive := by
  cases hs with
  | addParam hidle | setNoMoreExperiments hidle =>
    exact ⟨h.comm, by rw [h.campaign, hidle]; simp [Campaign.critical]⟩
  | campaign hc hs => exact campaignStep_exclusive h hc hs
  | getDone | getNull | accept => exact ⟨h.comm, h.campaign⟩
  | @resume i c o t hidle hc hs =>
    exact resumeStep_exclusive (s := { s with suspended := s.suspended.eraseIdx i })
      ⟨h.comm, h.campaign⟩ hidle hs
  | comm ha hs => exact commStep_exclusive h ha hs

end JobServer

end FailStar
