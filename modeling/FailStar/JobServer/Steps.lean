import FailStar.JobServer.Model

/-! # What a step of the job server can do

The step function of `Model` inverted once: `CommStep`, `ResumeStep` and `CampaignStep` list, case by
case, the conditions under which the code between two operations runs and the state it leaves. Every
invariant of the job server is a case analysis over these relations.

* **`commStep_cases`**, **`resumeStep_cases`**, **`campaignStep_cases`** — the functions are covered.
* **`Step`**, **`step_cases`** — the same for the whole system. -/

namespace FailStar

namespace JobServer

variable {M : Type*} {s s' : JobServer M} {a : Active} {l : Action M}

/-! ## The comm_service thread -/

/-- The point behind a wait for `m_CommMutex`. -/
inductive Locks : Active → Active → Prop
  | pick (ctrlmsg : FailControlMessage) : Locks (.lockPick ctrlmsg) (.pick ctrlmsg)
  | remove (ids : List ℕ) : Locks (.lockRemove ids) (.remove ids [])
  | put (recvd : Recvd) : Locks (.lockPut recvd) (.put recvd)

/-- **The steps of the active coroutine.** -/
inductive CommStep (s : JobServer M) : Active → JobServer M → Prop
  /-- A job is dequeued and gets the next workload ID. -/
  | dequeue {jobSize i ctrlmsg exp tempExp rest} (hi : i < jobSize)
      (hq : s.undoneJobs.queue = tempExp :: rest) :
      CommStep s (.dequeue jobSize i ctrlmsg exp)
        (({ s with
            undoneJobs := { s.undoneJobs with queue := rest }
            counter := SynchronizedCounter.increment s.counter }.setWorkloadID tempExp
              (SynchronizedCounter.increment s.counter)).next
          (.dequeue jobSize (i + 1)
            { ctrlmsg with
              workloadID := ctrlmsg.workloadID ++ [SynchronizedCounter.increment s.counter] }
            (exp ++ [tempExp])))
  /-- The dequeued jobs are announced. -/
  | announce {jobSize i ctrlmsg exp} (hexp : exp ≠ []) :
      CommStep s (.dequeue jobSize i ctrlmsg exp)
        (s.suspend (.workCtrl { ctrlmsg with jobSize := some exp.length } exp))
  /-- Nothing was dequeued: fall back to the 2nd priority. -/
  | fallback {jobSize i ctrlmsg} :
      CommStep s (.dequeue jobSize i ctrlmsg []) (s.next (.lockPick ctrlmsg))
  /-- The front job is serialized. -/
  | sendJob {ctrlmsg i front exp} :
      CommStep s (.sendJob ctrlmsg i (front :: exp)) (s.suspend (.workJob ctrlmsg i (front :: exp)))
  /-- The job just sent is running now. -/
  | insertRunning {ctrlmsg i front exp} :
      CommStep s (.insertRunning ctrlmsg i (front :: exp))
        ({ s with runningJobs := (s.runningJobs.insert (s.getWorkloadID front) front).2 }.sendLoop
          ctrlmsg (i + 1) exp)
  /-- All jobs that were not sent are back in `m_undoneJobs`. -/
  | requeued : CommStep s (.requeue []) s.finish
  /-- A job that was not sent goes back into `m_undoneJobs`. -/
  | requeue {front exp} (hfull : ¬ s.undoneJobs.Full) :
      CommStep s (.requeue (front :: exp))
        ({ s with undoneJobs := { s.undoneJobs with queue := s.undoneJobs.queue ++ [front] } }.next
          (.requeue exp))
  /-- `m_CommMutex` is taken. -/
  | lock {a a'} (hl : Locks a a') (hm : s.commMutex = none) :
      CommStep s a ({ s with commMutex := some .comm }.next a')
  /-- A running job is picked and announced. -/
  | pick {ctrlmsg tempExp} (hp : s.runningJobs.pickone.1 = some tempExp) :
      CommStep s (.pick ctrlmsg)
        ({ s with runningJobs := s.runningJobs.pickone.2 }.unlockComm.suspend
          (.resendCtrl
            { ctrlmsg with
              command := .workFollows
              workloadID := ctrlmsg.workloadID ++ [s.getWorkloadID tempExp]
              jobSize := some 1 }
            (some tempExp)))
  /-- There is no running job. -/
  | pickNone {ctrlmsg} (hp : s.runningJobs.pickone.1 = none) :
      CommStep s (.pick ctrlmsg)
        ({ s with runningJobs := s.runningJobs.pickone.2 }.unlockComm.suspend
          (.resendCtrl { ctrlmsg with command := if s.noMoreExps then .die else .comeAgain } none))
  /-- The picked job is serialized. -/
  | resend {ctrlmsg tempExp} : CommStep s (.resend ctrlmsg tempExp) (s.suspend .resendJob)
  /-- All announced jobs were looked up. -/
  | removed {msgs} : CommStep s (.remove [] msgs) (s.unlockComm.next (.receive msgs []))
  /-- An announced job is taken out of `m_runningJobs`. -/
  | remove {id ids msgs exp} (hid : s.runningJobs.map[id]? = some exp) :
      CommStep s (.remove (id :: ids) msgs)
        ({ s with runningJobs := { s.runningJobs with map := s.runningJobs.map.erase id } }.next
          (.remove ids (msgs ++ [(some exp, id)])))
  /-- An announced job is not running. -/
  | removeNone {id ids msgs} (hid : s.runningJobs.map[id]? = none) :
      CommStep s (.remove (id :: ids) msgs) (s.next (.remove ids (msgs ++ [(none, id)])))
  /-- All results were received. -/
  | received {recvd} : CommStep s (.receive [] recvd) (s.next (.lockPut recvd))
  /-- Wait for the next result. -/
  | receive {exp id msgs recvd} :
      CommStep s (.receive ((some exp, id) :: msgs) recvd) (s.suspend (.result exp id msgs recvd))
  /-- Wait for the next redundant result. -/
  | drop {id msgs recvd} :
      CommStep s (.receive ((none, id) :: msgs) recvd) (s.suspend (.drop msgs recvd))
  /-- All received jobs were put away. -/
  | stored : CommStep s (.put []) (s.next .testUndone)
  /-- A job with its result goes to `m_doneJobs`. -/
  | putDone {exp id recvd} (hfull : ¬ s.doneJobs.Full) :
      CommStep s (.put ((exp, id, true) :: recvd))
        ({ s with doneJobs := { s.doneJobs with queue := s.doneJobs.queue ++ [exp] } }.next
          (.put recvd))
  /-- A job without a result goes back to `m_runningJobs`. -/
  | putRunning {exp id recvd} :
      CommStep s (.put ((exp, id, false) :: recvd))
        ({ s with runningJobs := (s.runningJobs.insert id exp).2 }.next (.put recvd))
  /-- `m_undoneJobs.Size()` is zero. -/
  | testUndone (hsize : s.undoneJobs.size = 0) : CommStep s .testUndone (s.next .testRunning)
  /-- `m_undoneJobs.Size()` is not zero. -/
  | undoneLeft (hsize : s.undoneJobs.size ≠ 0) : CommStep s .testUndone s.unlockComm.finish
  /-- The test succeeds: `m_doneJobs` is marked finished. -/
  | complete (hmore : s.noMoreExps = true) (hsize : s.runningJobs.size = 0) :
      CommStep s .testRunning { s with doneJobs := s.doneJobs.setIsFinished }.unlockComm.finish
  /-- The test fails. -/
  | incomplete (hleft : ¬ (s.noMoreExps = true ∧ s.runningJobs.size = 0)) :
      CommStep s .testRunning s.unlockComm.finish

theorem sendLoop_eq (ctrlmsg : FailControlMessage) (i : ℕ) (exp : List Job) :
    s.sendLoop ctrlmsg i exp =
      { s with active := if i < ctrlmsg.getJobSize then some (.sendJob ctrlmsg i exp) else none } := by
  unfold sendLoop
  split <;> rfl

theorem announce_cases (jobSize i : ℕ) (ctrlmsg : FailControlMessage) (exp : List Job) :
    CommStep s (.dequeue jobSize i ctrlmsg exp) (s.announce ctrlmsg exp) := by
  unfold announce
  cases exp with
  | nil => exact .fallback
  | cons front exp => exact .announce (by simp)

theorem lockComm_cases {a' : Active} (hl : Locks a a') (h : s.lockComm a' = some s') :
    CommStep s a s' := by
  unfold lockComm at h
  split at h
  · cases h
    exact .lock hl ‹_›
  · exact absurd h (by simp)

/-- **`commStep` is covered by `CommStep`.** -/
theorem commStep_cases (h : s.commStep a = some s') : CommStep s a s' := by
  cases a with
  | dequeue jobSize i ctrlmsg exp =>
    rw [commStep] at h
    split at h
    · rename_i hi
      split at h
      · rename_i tempExp q hq
        obtain ⟨hq, hq'⟩ := SynchronizedQueue.dequeueNb_eq_some hq
        rw [hq'] at h
        cases h
        exact .dequeue hi hq
      · -- the queue is empty, or there are as many jobs as the client wants: they are announced
        cases h
        exact announce_cases jobSize i ctrlmsg exp
    · cases h
      exact announce_cases jobSize i ctrlmsg exp
  | sendJob ctrlmsg i exp =>
    cases exp with
    | nil => exact absurd h (by simp [commStep])
    | cons front exp => cases h; exact .sendJob
  | insertRunning ctrlmsg i exp =>
    cases exp with
    | nil => exact absurd h (by simp [commStep])
    | cons front exp => cases h; exact .insertRunning
  | requeue exp =>
    cases exp with
    | nil => cases h; exact .requeued
    | cons front exp =>
      obtain ⟨q, hq, rfl⟩ := Option.map_eq_some_iff.mp h
      obtain ⟨hfull, rfl⟩ := SynchronizedQueue.enqueue_eq_some hq
      exact .requeue hfull
  | lockPick ctrlmsg => exact lockComm_cases (.pick ctrlmsg) h
  | pick ctrlmsg =>
    rw [commStep] at h
    split at h <;> rename_i runningJobs hp <;> cases h
    · obtain rfl : s.runningJobs.pickone.2 = runningJobs := congrArg Prod.snd hp
      exact .pick (congrArg Prod.fst hp)
    · obtain rfl : s.runningJobs.pickone.2 = runningJobs := congrArg Prod.snd hp
      exact .pickNone (congrArg Prod.fst hp)
  | resend ctrlmsg tempExp => cases h; exact .resend
  | lockRemove ids => exact lockComm_cases (.remove ids) h
  | remove ids msgs =>
    cases ids with
    | nil => cases h; exact .removed
    | cons id ids =>
      cases hid : s.runningJobs.map[id]? with
      | none =>
        rw [commStep, SynchronizedMap.remove_of_absent hid] at h
        cases h
        exact .removeNone hid
      | some exp =>
        rw [commStep, SynchronizedMap.remove_of_present hid] at h
        cases h
        exact .remove hid
  | receive msgs recvd =>
    match msgs with
    | [] => cases h; exact .received
    | (some exp, id) :: msgs => cases h; exact .receive
    | (none, id) :: msgs => cases h; exact .drop
  | lockPut recvd => exact lockComm_cases (.put recvd) h
  | put recvd =>
    match recvd with
    | [] => cases h; exact .stored
    | (exp, id, true) :: recvd =>
      obtain ⟨q, hq, rfl⟩ := Option.map_eq_some_iff.mp h
      obtain ⟨hfull, rfl⟩ := SynchronizedQueue.enqueue_eq_some hq
      exact .putDone hfull
    | (exp, id, false) :: recvd => cases h; exact .putRunning
  | testUndone =>
    rw [commStep] at h
    split at h <;> cases h
    · exact .testUndone ‹_›
    · exact .undoneLeft ‹_›
  | testRunning =>
    rw [commStep] at h
    split at h <;> cases h
    · rename_i hc
      exact .complete hc.1 hc.2
    · exact .incomplete ‹_›

/-- **The steps that resume a suspended coroutine**, which is no longer among the suspended ones. -/
inductive ResumeStep (s : JobServer M) : Suspended → Outcome M → JobServer M → Prop
  /-- The client could not be understood: the coroutine returns. -/
  | helloFailed : ResumeStep s .hello .failed s
  /-- An old or confused client is told to die. -/
  | helloDie {ctrlmsg} : ResumeStep s .hello (.ctrl ctrlmsg) (s.suspend .die)
  /-- A client asks for work. -/
  | needWork {ctrlmsg} :
      ResumeStep s .hello (.ctrl ctrlmsg)
        (s.next (.dequeue ctrlmsg.getJobSize 0
          { command := .workFollows, runId := some s.runid } []))
  /-- A client announces results. -/
  | resultFollows {ctrlmsg} :
      ResumeStep s .hello (.ctrl ctrlmsg) (s.next (.lockRemove ctrlmsg.workloadID))
  /-- The results of an old client are ignored. -/
  | oldResult {ctrlmsg} : ResumeStep s .hello (.ctrl ctrlmsg) s.finish
  /-- DIE was sent, or not. -/
  | died {o} : ResumeStep s .die o s
  /-- The announcement was sent. -/
  | announced {ctrlmsg exp} : ResumeStep s (.workCtrl ctrlmsg exp) .sent (s.sendLoop ctrlmsg 0 exp)
  /-- The announcement could not be sent: the coroutine returns. -/
  | announceFailed {ctrlmsg exp} : ResumeStep s (.workCtrl ctrlmsg exp) .failed s
  /-- A job was sent. -/
  | jobSent {ctrlmsg i exp} :
      ResumeStep s (.workJob ctrlmsg i exp) .sent (s.next (.insertRunning ctrlmsg i exp))
  /-- A job could not be sent. -/
  | jobFailed {ctrlmsg i exp} : ResumeStep s (.workJob ctrlmsg i exp) .failed (s.next (.requeue exp))
  /-- The control message of the 2nd priority was sent; a job follows. -/
  | resendAnnounced {ctrlmsg tempExp} :
      ResumeStep s (.resendCtrl ctrlmsg (some tempExp)) .sent (s.next (.resend ctrlmsg tempExp))
  /-- The control message of the 2nd priority ends the coroutine. -/
  | resendEnds {ctrlmsg tempExp o} : ResumeStep s (.resendCtrl ctrlmsg tempExp) o s
  /-- The picked job was sent, or not. -/
  | resent {o} : ResumeStep s .resendJob o s
  /-- A result was received and parsed. -/
  | result {exp id msgs recvd msg} :
      ResumeStep s (.result exp id msgs recvd) (.result msg)
        ((s.setMessage exp msg).next (.receive msgs (recvd ++ [(exp, id, true)])))
  /-- A result was received but could not be parsed. -/
  | unparsable {exp id msgs recvd msg} :
      ResumeStep s (.result exp id msgs recvd) (.unparsable msg)
        ((s.setMessage exp msg).next (.receive msgs (recvd ++ [(exp, id, false)])))
  /-- A result could not be received. -/
  | resultFailed {exp id msgs recvd} :
      ResumeStep s (.result exp id msgs recvd) .failed
        (s.next (.receive msgs (recvd ++ [(exp, id, false)])))
  /-- A redundant result was dropped, or not. -/
  | dropped {msgs recvd o} : ResumeStep s (.drop msgs recvd) o (s.next (.receive msgs recvd))

/-- Every way `operator()` dispatches is one of four steps. -/
theorem dispatch_cases (ctrlmsg : FailControlMessage) :
    ResumeStep s .hello (.ctrl ctrlmsg) (s.dispatch ctrlmsg) := by
  unfold dispatch
  split
  · split
    · exact .helloDie
    · split
      · exact .helloDie
      · exact .needWork
  · split
    · exact .resultFollows
    · exact .oldResult
  · exact .helloDie

/-- **`resumeStep` is covered by `ResumeStep`.** -/
theorem resumeStep_cases {c : Suspended} {o : Outcome M} (h : s.resumeStep c o = some s') :
    ResumeStep s c o s' := by
  cases c with
  | hello =>
    cases o with
    | ctrl ctrlmsg => cases h; exact dispatch_cases ctrlmsg
    | failed => cases h; exact .helloFailed
    | sent | result | unparsable => exact absurd h (by simp [resumeStep])
  | die =>
    cases o with
    | failed | sent => cases h; exact .died
    | ctrl | result | unparsable => exact absurd h (by simp [resumeStep])
  | workCtrl ctrlmsg exp =>
    cases o with
    | sent => cases h; exact .announced
    | failed => cases h; exact .announceFailed
    | ctrl | result | unparsable => exact absurd h (by simp [resumeStep])
  | workJob ctrlmsg i exp =>
    cases o with
    | sent => cases h; exact .jobSent
    | failed => cases h; exact .jobFailed
    | ctrl | result | unparsable => exact absurd h (by simp [resumeStep])
  | resendCtrl ctrlmsg tempExp =>
    cases o with
    | sent =>
      cases tempExp with
      | none => cases h; exact .resendEnds
      | some tempExp => cases h; exact .resendAnnounced
    | failed => cases tempExp <;> cases h <;> exact .resendEnds
    | ctrl | result | unparsable => exact absurd h (by simp [resumeStep])
  | resendJob =>
    cases o with
    | failed | sent => cases h; exact .resent
    | ctrl | result | unparsable => exact absurd h (by simp [resumeStep])
  | result exp id msgs recvd =>
    cases o with
    | result msg => cases h; exact .result
    | unparsable msg => cases h; exact .unparsable
    | failed => cases h; exact .resultFailed
    | ctrl | sent => exact absurd h (by simp [resumeStep])
  | drop msgs recvd =>
    cases o with
    | failed | sent => cases h; exact .dropped
    | ctrl | result | unparsable => exact absurd h (by simp [resumeStep])

/-! ## The campaign thread -/

/-- **The steps of the campaign thread** inside a call. -/
inductive CampaignStep (s : JobServer M) : Campaign M → JobServer M → Prop
  /-- `addParam` enqueues the object and returns. -/
  | enqueue {params} (hfull : ¬ s.undoneJobs.Full) :
      CampaignStep s (.enqueue params)
        { s with
          undoneJobs := { s.undoneJobs with queue := s.undoneJobs.queue ++ [s.data.length] }
          data := s.data ++ [{ params, msg := params }]
          campaign := .idle }
  /-- `setNoMoreExperiments` takes `m_CommMutex`. -/
  | lock (hm : s.commMutex = none) :
      CampaignStep s .lockComm { s with commMutex := some .campaign, campaign := .setFlag }
  /-- The flag is set. -/
  | setFlag :
      CampaignStep s .setFlag
        { s with
          noMoreExps := true
          undoneJobs := s.undoneJobs.setIsFinished
          campaign := .testUndone }
  /-- `m_undoneJobs.Size()` is zero. -/
  | testUndone (hsize : s.undoneJobs.size = 0) :
      CampaignStep s .testUndone { s with campaign := .testRunning }
  /-- `m_undoneJobs.Size()` is not zero. -/
  | undoneLeft (hsize : s.undoneJobs.size ≠ 0) : CampaignStep s .testUndone s.returnNoMore
  /-- `m_runningJobs.Size()` is zero. -/
  | testRunning (hsize : s.runningJobs.size = 0) :
      CampaignStep s .testRunning { s with campaign := .finish }
  /-- `m_runningJobs.Size()` is not zero. -/
  | runningLeft (hsize : s.runningJobs.size ≠ 0) : CampaignStep s .testRunning s.returnNoMore
  /-- `m_doneJobs` is marked finished. -/
  | finish : CampaignStep s .finish { s with doneJobs := s.doneJobs.setIsFinished }.returnNoMore

/-- **`campaignStep` is covered by `CampaignStep`.** -/
theorem campaignStep_cases {c : Campaign M} (h : s.campaignStep c = some s') :
    CampaignStep s c s' := by
  cases c with
  | idle => exact absurd h (by simp [campaignStep])
  | enqueue params =>
    obtain ⟨q, hq, rfl⟩ := Option.map_eq_some_iff.mp h
    obtain ⟨hfull, rfl⟩ := SynchronizedQueue.enqueue_eq_some hq
    exact .enqueue hfull
  | lockComm =>
    rw [campaignStep] at h
    split at h
    · cases h; exact .lock ‹_›
    · exact absurd h (by simp)
  | setFlag => cases h; exact .setFlag
  | testUndone =>
    rw [campaignStep] at h
    split at h <;> cases h
    · exact .testUndone ‹_›
    · exact .undoneLeft ‹_›
  | testRunning =>
    rw [campaignStep] at h
    split at h <;> cases h
    · exact .testRunning ‹_›
    · exact .runningLeft ‹_›
  | finish => cases h; exact .finish

/-! ## The system -/

/-- **The steps of the system.** -/
inductive Step (s : JobServer M) : Action M → JobServer M → Prop
  | addParam {params} (hidle : s.campaign = .idle) :
      Step s (.addParam params) { s with campaign := .enqueue params }
  | setNoMoreExperiments (hidle : s.campaign = .idle) :
      Step s .setNoMoreExperiments { s with campaign := .lockComm }
  | campaign {c : Campaign M} {t : JobServer M} (hc : s.campaign = c) (h : CampaignStep s c t) :
      Step s .campaign t
  /-- `getDone` returns a job. -/
  | getDone {exp rest} (hq : s.doneJobs.queue = exp :: rest) :
      Step s .getDone
        { s with doneJobs := { s.doneJobs with queue := rest }, returned := s.returned ++ [exp] }
  /-- `getDone` returns `NULL`. -/
  | getNull (hq : s.doneJobs.queue = []) (hf : s.doneJobs.finished = true) : Step s .getDone s
  | accept : Step s .accept { s with suspended := s.suspended ++ [.hello] }
  | resume {i : ℕ} {c : Suspended} {o : Outcome M} {t : JobServer M} (hidle : s.active = none)
      (hc : s.suspended[i]? = some c)
      (h : ResumeStep { s with suspended := s.suspended.eraseIdx i } c o t) :
      Step s (.resume i o) t
  | comm {b : Active} {t : JobServer M} (ha : s.active = some b) (h : CommStep s b t) :
      Step s .comm t

/-- `getDone` returns the front of `m_doneJobs`, or `NULL` once the empty queue is finished. -/
theorem getDone_cases {r : Option Job} (h : s.getDone = some (r, s')) :
    (∃ exp rest, r = some exp ∧ s.doneJobs.queue = exp :: rest ∧
      s' = { s with
        doneJobs := { s.doneJobs with queue := rest }, returned := s.returned ++ [exp] }) ∨
    (r = none ∧ s.doneJobs.queue = [] ∧ s.doneJobs.finished = true ∧ s' = s) := by
  obtain ⟨⟨r', q⟩, hq, hr⟩ := Option.map_eq_some_iff.mp h
  cases r' with
  | none =>
    cases hr
    obtain ⟨hnil, hfin, -⟩ := SynchronizedQueue.dequeue_eq_default.mp hq
    exact .inr ⟨rfl, hnil, hfin, rfl⟩
  | some exp =>
    cases hr
    obtain ⟨hcons, hq'⟩ := SynchronizedQueue.dequeue_eq_item hq
    exact .inl ⟨exp, q.queue, rfl, hcons, by rw [← hq']⟩

/-- **`step` is covered by `Step`.** -/
theorem step_cases (h : s.step l = some s') : Step s l s' := by
  cases l with
  | addParam params =>
    rw [step] at h
    split at h
    · cases h; exact .addParam ‹_›
    · exact absurd h (by simp)
  | setNoMoreExperiments =>
    rw [step] at h
    split at h
    · cases h; exact .setNoMoreExperiments ‹_›
    · exact absurd h (by simp)
  | campaign => exact .campaign rfl (campaignStep_cases h)
  | getDone =>
    obtain ⟨⟨r, s₁⟩, hr, rfl⟩ := Option.map_eq_some_iff.mp h
    obtain ⟨exp, rest, -, hq, rfl⟩ | ⟨-, hq, hf, rfl⟩ := getDone_cases hr
    · exact .getDone hq
    · exact .getNull hq hf
  | accept => cases h; exact .accept
  | resume i o =>
    rw [step] at h
    split at h
    · rename_i c ha hc
      exact .resume ha hc (resumeStep_cases h)
    · exact absurd h (by simp)
  | comm =>
    obtain ⟨a, ha, h⟩ := Option.bind_eq_some_iff.mp h
    exact .comm ha (commStep_cases h)

end JobServer

end FailStar
