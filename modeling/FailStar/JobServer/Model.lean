import FailStar.Foundations.Reachability
import FailStar.JobServer.Containers

/-! # The job server as a step function

`JobServer` hands the campaign's jobs to clients and collects their results. Three threads act on it:

* the **campaign thread** calls `addParam` and `setNoMoreExperiments`;
* the **collecting thread** calls `getDone`;
* the **`comm_service` thread** runs one `CommThread` coroutine per client connection. A coroutine runs
  until its next asynchronous send or receive, where it is *suspended* and another one may be resumed;
  at most one coroutine is *active* at any time.

Every operation on a shared container is an atomic step of its own, so the operations of the three
threads interleave freely. The outcome of every send and receive is chosen by the environment: it may
fail, and a received message is arbitrary. A step that would have to wait (for a free slot, for a
result, for `m_CommMutex`) is disabled until it can proceed.

* **`Active`**, **`Suspended`**, **`Campaign`** — where each thread stands in its code.
* **`JobServer`** — the shared state.
* **`commStep`**, **`resumeStep`**, **`campaignStep`** — the code between two such points.
* **`step`** — the step function of the whole system. -/

namespace FailStar

/-! ## Messages and job objects -/

/-- `FailControlMessage::Command`. -/
inductive Command
  /-- Sent by a client that asks for work. -/
  | needWork
  /-- Sent by a client that announces results. -/
  | resultFollows
  /-- Sent by the server before the announced jobs. -/
  | workFollows
  /-- Sent by the server when there is currently nothing to do. -/
  | comeAgain
  /-- Sent by the server to terminate the client. -/
  | die
  deriving DecidableEq, Repr

/-- `FailControlMessage`. -/
structure FailControlMessage where
  /-- `command`. -/
  command : Command
  /-- `workloadID`, the announced jobs in order. -/
  workloadID : List ℕ := []
  /-- `build_id`. -/
  buildId : ℕ := 42
  /-- `run_id`. -/
  runId : Option ℕ := none
  /-- `job_size`. -/
  jobSize : Option ℕ := none
  deriving DecidableEq, Repr

/-- `ctrlmsg.job_size()`: an absent field reads as zero. -/
def FailControlMessage.getJobSize (ctrlmsg : FailControlMessage) : ℕ := ctrlmsg.jobSize.getD 0

/-- An `ExperimentData *`. The campaign allocates a new object for every `addParam` call, so an object
is identified by the number of calls before the one that passed it. -/
abbrev Job := ℕ

/-- `ExperimentData`: the message, which holds the parameters until a result overwrites it, and the
workload ID. `params` keeps what was passed to `addParam`; no code reads it. -/
structure ExperimentData (M : Type*) where
  /-- The parameters passed to `addParam`. -/
  params : M
  /-- `*msg`, the current contents. -/
  msg : M
  /-- `m_workloadID`. -/
  workloadID : ℕ := 0
  deriving DecidableEq, Repr

/-! ## Where the threads stand -/

/-- What `receiveExperimentResults` took from `m_runningJobs`, with the announced workload ID. -/
abbrev Msgs := List (Option Job × ℕ)

/-- What `receiveExperimentResults` has received so far: job, workload ID, success. -/
abbrev Recvd := List (Job × ℕ × Bool)

/-- The point the active coroutine has reached: the next operation it performs. -/
inductive Active
  /-- `sendPendingExperimentData`: the loop around `Dequeue_nb`. -/
  | dequeue (jobSize i : ℕ) (ctrlmsg : FailControlMessage) (exp : List Job)
  /-- Serialize `exp.front()` and start sending it. -/
  | sendJob (ctrlmsg : FailControlMessage) (i : ℕ) (exp : List Job)
  /-- Insert the job just sent into `m_runningJobs`. -/
  | insertRunning (ctrlmsg : FailControlMessage) (i : ℕ) (exp : List Job)
  /-- Put the jobs that were not sent back into `m_undoneJobs`. -/
  | requeue (exp : List Job)
  /-- Wait for `m_CommMutex` before picking a running job. -/
  | lockPick (ctrlmsg : FailControlMessage)
  /-- Pick a running job to send again (2nd priority). -/
  | pick (ctrlmsg : FailControlMessage)
  /-- Serialize the picked job and start sending it. -/
  | resend (ctrlmsg : FailControlMessage) (tempExp : Job)
  /-- `receiveExperimentResults`: wait for `m_CommMutex`. -/
  | lockRemove (ids : List ℕ)
  /-- Remove the announced jobs from `m_runningJobs`. -/
  | remove (ids : List ℕ) (msgs : Msgs)
  /-- The loop around `rcvMsg` and `dropMsg`. -/
  | receive (msgs : Msgs) (recvd : Recvd)
  /-- Wait for `m_CommMutex` again. -/
  | lockPut (recvd : Recvd)
  /-- Move the received jobs to `m_doneJobs`, the others back to `m_runningJobs`. -/
  | put (recvd : Recvd)
  /-- "all results complete?": read `m_undoneJobs.Size()`. -/
  | testUndone
  /-- "all results complete?": read the flag and `m_runningJobs.Size()`. -/
  | testRunning
  deriving DecidableEq, Repr

/-- The asynchronous operation a suspended coroutine waits for. -/
inductive Suspended
  /-- The client's control message. -/
  | hello
  /-- Sending DIE to an old or confused client. -/
  | die
  /-- Sending the control message that announces the dequeued jobs. -/
  | workCtrl (ctrlmsg : FailControlMessage) (exp : List Job)
  /-- Sending `exp.front()`. -/
  | workJob (ctrlmsg : FailControlMessage) (i : ℕ) (exp : List Job)
  /-- Sending the control message of the 2nd priority. -/
  | resendCtrl (ctrlmsg : FailControlMessage) (tempExp : Option Job)
  /-- Sending the picked job. -/
  | resendJob
  /-- Receiving the result of `exp` into its message. -/
  | result (exp : Job) (id : ℕ) (msgs : Msgs) (recvd : Recvd)
  /-- Receiving and dropping a redundant result. -/
  | drop (msgs : Msgs) (recvd : Recvd)
  deriving DecidableEq, Repr

/-- Where the campaign thread stands: between calls, inside `addParam`, or inside
`setNoMoreExperiments`. -/
inductive Campaign (M : Type*)
  | idle
  /-- `addParam`: about to `Enqueue`. -/
  | enqueue (params : M)
  /-- `setNoMoreExperiments`: waiting for `m_CommMutex`. -/
  | lockComm
  /-- Setting `noMoreExps` and finishing `m_undoneJobs`. -/
  | setFlag
  /-- Reading `m_undoneJobs.Size()`. -/
  | testUndone
  /-- Reading `m_runningJobs.Size()`. -/
  | testRunning
  /-- Marking `m_doneJobs` finished. -/
  | finish
  deriving DecidableEq, Repr

/-- The threads that take `m_CommMutex`. -/
inductive Holder
  | comm
  | campaign
  deriving DecidableEq, Repr

/-! ## The shared state -/

/-- The job server with the state of its threads. -/
structure JobServer (M : Type*) where
  /-- `m_runid`. -/
  runid : ℕ
  /-- `m_undoneJobs`. -/
  undoneJobs : SynchronizedQueue Job := {}
  /-- `m_runningJobs`. -/
  runningJobs : SynchronizedMap ℕ Job := {}
  /-- `m_doneJobs`. -/
  doneJobs : SynchronizedQueue Job := {}
  /-- `m_counter`. -/
  counter : ℕ := 0
  /-- `noMoreExps`. -/
  noMoreExps : Bool := false
  /-- Who holds `m_CommMutex`. -/
  commMutex : Option Holder := none
  /-- The job objects, in the order of their `addParam` calls. -/
  data : List (ExperimentData M) := []
  /-- The campaign thread. -/
  campaign : Campaign M := .idle
  /-- Whether some call of `setNoMoreExperiments` has returned; no code reads it. -/
  noMoreReturned : Bool := false
  /-- The coroutine the `comm_service` thread is executing. -/
  active : Option Active := none
  /-- The suspended coroutines. -/
  suspended : List Suspended := []
  /-- What `getDone` has returned so far; no code reads it. -/
  returned : List Job := []

namespace JobServer

variable {M : Type*}

/-- A server that was just constructed; the capacity is `SERVER_OUT_QUEUE_SIZE`. -/
def init (runid capacity : ℕ) : JobServer M := { runid, undoneJobs := { capacity } }

/-- `exp->getWorkloadID()`. -/
def getWorkloadID (s : JobServer M) (exp : Job) : ℕ := (s.data[exp]?.map (·.workloadID)).getD 0

/-- `exp->setWorkloadID(id)`. -/
def setWorkloadID (s : JobServer M) (exp : Job) (id : ℕ) : JobServer M :=
  { s with data := s.data.modify exp (fun d => { d with workloadID := id }) }

/-- Overwrite `exp->getMessage()`. -/
def setMessage (s : JobServer M) (exp : Job) (msg : M) : JobServer M :=
  { s with data := s.data.modify exp (fun d => { d with msg := msg }) }

/-- The active coroutine goes on to its next operation. -/
def next (s : JobServer M) (a : Active) : JobServer M := { s with active := some a }

/-- The active coroutine starts an asynchronous operation and yields. -/
def suspend (s : JobServer M) (c : Suspended) : JobServer M :=
  { s with active := none, suspended := s.suspended ++ [c] }

/-- The active coroutine returns. -/
def finish (s : JobServer M) : JobServer M := { s with active := none }

/-- Take `m_CommMutex` and go on; disabled while the campaign thread holds it. -/
def lockComm (s : JobServer M) (a : Active) : Option (JobServer M) :=
  if s.commMutex = none then some ({ s with commMutex := some .comm }.next a) else none

/-- Release `m_CommMutex`. -/
def unlockComm (s : JobServer M) : JobServer M := { s with commMutex := none }

/-! ## CommThread -/

/-- After the `Dequeue_nb` loop: announce the dequeued jobs, or fall back to the 2nd priority. -/
def announce (s : JobServer M) (ctrlmsg : FailControlMessage) (exp : List Job) : JobServer M :=
  if exp.length ≠ 0 then s.suspend (.workCtrl { ctrlmsg with jobSize := some exp.length } exp)
  else s.next (.lockPick ctrlmsg)

/-- The head of the loop that sends the announced jobs. -/
def sendLoop (s : JobServer M) (ctrlmsg : FailControlMessage) (i : ℕ) (exp : List Job) :
    JobServer M :=
  if i < ctrlmsg.getJobSize then s.next (.sendJob ctrlmsg i exp) else s.finish

/-- `CommThread::operator()` after the client's control message was received. -/
def dispatch (s : JobServer M) (ctrlmsg : FailControlMessage) : JobServer M :=
  match ctrlmsg.command with
  | .needWork =>
    match ctrlmsg.runId with
    | none => s.suspend .die
    | some runId =>
      -- let old clients die (run_id == 0 -> possibly virgin client)
      if runId ≠ 0 ∧ runId ≠ s.runid then s.suspend .die
      else s.next (.dequeue ctrlmsg.getJobSize 0
        { command := .workFollows, runId := some s.runid } [])
  | .resultFollows =>
    -- ignore old client's results
    if ctrlmsg.runId = some s.runid then s.next (.lockRemove ctrlmsg.workloadID) else s.finish
  | _ => s.suspend .die

/-- **The next operation of the active coroutine**, up to its next operation on shared state or its
next asynchronous operation. -/
def commStep (s : JobServer M) : Active → Option (JobServer M)
  | .dequeue jobSize i ctrlmsg exp =>
    if i < jobSize then
      match s.undoneJobs.dequeueNb with
      | some (tempExp, undoneJobs) =>
        let workloadID := SynchronizedCounter.increment s.counter
        let s := { s with undoneJobs, counter := workloadID }.setWorkloadID tempExp workloadID
        let ctrlmsg := { ctrlmsg with workloadID := ctrlmsg.workloadID ++ [workloadID] }
        some (s.next (.dequeue jobSize (i + 1) ctrlmsg (exp ++ [tempExp])))
      | none => some (s.announce ctrlmsg exp)
    else some (s.announce ctrlmsg exp)
  | .sendJob _ _ [] => none
  | .sendJob ctrlmsg i (front :: exp) => some (s.suspend (.workJob ctrlmsg i (front :: exp)))
  | .insertRunning _ _ [] => none
  | .insertRunning ctrlmsg i (front :: exp) =>
    -- a refused insertion is only reported on the console
    let runningJobs := (s.runningJobs.insert (s.getWorkloadID front) front).2
    some ({ s with runningJobs }.sendLoop ctrlmsg (i + 1) exp)
  | .requeue [] => some s.finish
  | .requeue (front :: exp) =>
    (s.undoneJobs.enqueue front).map fun undoneJobs => { s with undoneJobs }.next (.requeue exp)
  | .lockPick ctrlmsg => s.lockComm (.pick ctrlmsg)
  | .pick ctrlmsg =>
    match s.runningJobs.pickone with
    | (some tempExp, runningJobs) =>
      let ctrlmsg := { ctrlmsg with
        command := .workFollows
        workloadID := ctrlmsg.workloadID ++ [s.getWorkloadID tempExp]
        jobSize := some 1 }
      -- the mutex is released before the control message and the job are sent
      some ({ s with runningJobs }.unlockComm.suspend (.resendCtrl ctrlmsg (some tempExp)))
    | (none, runningJobs) =>
      let ctrlmsg := { ctrlmsg with command := if s.noMoreExps then .die else .comeAgain }
      some ({ s with runningJobs }.unlockComm.suspend (.resendCtrl ctrlmsg none))
  | .resend _ _ => some (s.suspend .resendJob)
  | .lockRemove ids => s.lockComm (.remove ids [])
  | .remove [] msgs => some (s.unlockComm.next (.receive msgs []))
  | .remove (id :: ids) msgs =>
    let (exp, runningJobs) := s.runningJobs.remove id
    some ({ s with runningJobs }.next (.remove ids (msgs ++ [(exp, id)])))
  | .receive [] recvd => some (s.next (.lockPut recvd))
  | .receive ((some exp, id) :: msgs) recvd => some (s.suspend (.result exp id msgs recvd))
  | .receive ((none, _) :: msgs) recvd => some (s.suspend (.drop msgs recvd))
  | .lockPut recvd => s.lockComm (.put recvd)
  | .put [] => some (s.next .testUndone)
  | .put ((exp, _, true) :: recvd) =>
    (s.doneJobs.enqueue exp).map fun doneJobs => { s with doneJobs }.next (.put recvd)
  | .put ((exp, id, false) :: recvd) =>
    -- here, too, the result of the insertion is ignored
    let runningJobs := (s.runningJobs.insert id exp).2
    some ({ s with runningJobs }.next (.put recvd))
  | .testUndone =>
    if s.undoneJobs.size = 0 then some (s.next .testRunning) else some s.unlockComm.finish
  | .testRunning =>
    if s.noMoreExps ∧ s.runningJobs.size = 0 then
      some { s with doneJobs := s.doneJobs.setIsFinished }.unlockComm.finish
    else some s.unlockComm.finish

/-- How an asynchronous operation ends. -/
inductive Outcome (M : Type*)
  /-- The operation failed; nothing was stored. -/
  | failed
  /-- A message was sent, or a redundant result dropped. -/
  | sent
  /-- A control message was received. -/
  | ctrl (ctrlmsg : FailControlMessage)
  /-- A result was received and parsed. -/
  | result (msg : M)
  /-- A result was received but could not be parsed; the parser left `msg` behind. -/
  | unparsable (msg : M)

/-- **A suspended coroutine is resumed** with the outcome of its operation; it is no longer among the
suspended ones of `s`. Outcomes that do not belong to the operation are disabled. -/
def resumeStep (s : JobServer M) : Suspended → Outcome M → Option (JobServer M)
  | .hello, .failed => some s
  | .hello, .ctrl ctrlmsg => some (s.dispatch ctrlmsg)
  | .die, .failed => some s
  | .die, .sent => some s
  | .workCtrl ctrlmsg exp, .sent => some (s.sendLoop ctrlmsg 0 exp)
  | .workCtrl _ _, .failed => some s
  | .workJob ctrlmsg i exp, .sent => some (s.next (.insertRunning ctrlmsg i exp))
  | .workJob _ _ exp, .failed => some (s.next (.requeue exp))
  | .resendCtrl ctrlmsg (some tempExp), .sent => some (s.next (.resend ctrlmsg tempExp))
  | .resendCtrl _ none, .sent => some s
  | .resendCtrl _ _, .failed => some s
  | .resendJob, .failed => some s
  | .resendJob, .sent => some s
  | .result exp id msgs recvd, .result msg =>
    some ((s.setMessage exp msg).next (.receive msgs (recvd ++ [(exp, id, true)])))
  | .result exp id msgs recvd, .unparsable msg =>
    some ((s.setMessage exp msg).next (.receive msgs (recvd ++ [(exp, id, false)])))
  | .result exp id msgs recvd, .failed =>
    some (s.next (.receive msgs (recvd ++ [(exp, id, false)])))
  | .drop msgs recvd, .failed => some (s.next (.receive msgs recvd))
  | .drop msgs recvd, .sent => some (s.next (.receive msgs recvd))
  | _, _ => none

/-! ## The campaign -/

/-- The campaign thread leaves `setNoMoreExperiments`. -/
def returnNoMore (s : JobServer M) : JobServer M :=
  { s with commMutex := none, campaign := .idle, noMoreReturned := true }

/-- **The next operation of the campaign thread** inside `addParam` or `setNoMoreExperiments`. -/
def campaignStep (s : JobServer M) : Campaign M → Option (JobServer M)
  | .idle => none
  | .enqueue params =>
    (s.undoneJobs.enqueue s.data.length).map fun undoneJobs =>
      { s with undoneJobs, data := s.data ++ [{ params, msg := params }], campaign := .idle }
  | .lockComm =>
    if s.commMutex = none then
      some { s with commMutex := some .campaign, campaign := .setFlag }
    else none
  | .setFlag =>
    some { s with
      noMoreExps := true
      undoneJobs := s.undoneJobs.setIsFinished
      campaign := .testUndone }
  | .testUndone =>
    if s.undoneJobs.size = 0 then some { s with campaign := .testRunning } else some s.returnNoMore
  | .testRunning =>
    if s.runningJobs.size = 0 then some { s with campaign := .finish } else some s.returnNoMore
  | .finish => some { s with doneJobs := s.doneJobs.setIsFinished }.returnNoMore

/-- `getDone()`: the returned job (`none` is `NULL`) and the state after; disabled while it waits. -/
def getDone (s : JobServer M) : Option (Option Job × JobServer M) :=
  s.doneJobs.dequeue.map fun
    | (none, _) => (none, s)
    | (some exp, doneJobs) => (some exp, { s with doneJobs, returned := s.returned ++ [exp] })

/-! ## The system -/

/-- The actions of the system. -/
inductive Action (M : Type*)
  /-- The campaign thread calls `addParam` with a new object. -/
  | addParam (params : M)
  /-- The campaign thread calls `setNoMoreExperiments`. -/
  | setNoMoreExperiments
  /-- The campaign thread performs its next operation. -/
  | campaign
  /-- The collecting thread completes a call of `getDone`. -/
  | getDone
  /-- A client connection is accepted and its coroutine spawned. -/
  | accept
  /-- The `i`-th suspended coroutine is resumed. -/
  | resume (i : ℕ) (outcome : Outcome M)
  /-- The active coroutine performs its next operation. -/
  | comm

/-- **One step of the system.** -/
def step (s : JobServer M) : Action M → Option (JobServer M)
  | .addParam params =>
    match s.campaign with
    | .idle => some { s with campaign := .enqueue params }
    | _ => none
  | .setNoMoreExperiments =>
    match s.campaign with
    | .idle => some { s with campaign := .lockComm }
    | _ => none
  | .campaign => s.campaignStep s.campaign
  | .getDone => s.getDone.map Prod.snd
  | .accept => some { s with suspended := s.suspended ++ [.hello] }
  | .resume i outcome =>
    match s.active, s.suspended[i]? with
    | none, some c => { s with suspended := s.suspended.eraseIdx i }.resumeStep c outcome
    | _, _ => none
  | .comm => s.active.bind s.commStep

end JobServer

end FailStar
