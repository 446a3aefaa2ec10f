import FailStar.JobServer.WorkloadIds

/-! # Clients and their exchange with the job server

`JobClient` asks the server for jobs and sends the results back, over a new connection each time. In both
directions a control message announces workload IDs and the bodies follow one by one, without IDs. This file
puts the job server, any number of clients and their connections together.

* **`Channel`** — one direction of a connection. A message is delivered as a whole, in order. Reading may fail
  for good at any time, and a message that was read may turn out not to be parsable.
* **`Client`** — where a client stands in its code; **`Client.io`** — its next operation on the socket.
* **`Suspended.io`** — what the operation that a coroutine of the server waits for does to the connection.
* **`Exchange.step`** — the whole system. It records where every body is stored. -/

namespace FailStar

/-! ## Connections -/

/-- A message on a connection. -/
inductive Frame (M : Type*)
  | ctrl (ctrlmsg : FailControlMessage)
  /-- The message of an experiment data object. The workload ID of this object is not transmitted; no code reads
  it. -/
  | body (id : ℕ) (msg : M)
  deriving DecidableEq, Repr

/-- One direction of a connection. -/
structure Channel (M : Type*) where
  /-- The messages that have been written. -/
  frames : List (Frame M) := []
  /-- How many of them have been read. -/
  pos : ℕ := 0
  /-- The reader has seen the end of the stream, or an error. -/
  broken : Bool := false
  deriving DecidableEq, Repr

/-- How an operation on a socket ends. -/
inductive Io (M : Type*)
  | ok
  /-- A message was read but could not be parsed; the parser left `msg` behind. -/
  | unparsable (msg : M)
  /-- An I/O error, or a message that could not be serialized. -/
  | failed
  deriving DecidableEq, Repr

/-- A connection between a client and a coroutine of the server. -/
structure Connection (M : Type*) where
  /-- The server has a coroutine for it, or had one. -/
  accepted : Bool := false
  toServer : Channel M := {}
  toClient : Channel M := {}
  /-- The body that the coroutine has serialized. -/
  sending : Option (Frame M) := none
  /-- What the coroutine has found in `m_runningJobs` for the announced workload IDs; no code reads it. -/
  lookups : List (Option Job) := []
  deriving DecidableEq, Repr

section

variable {M : Type*}

def Channel.write (ch : Channel M) (f : Frame M) : Channel M := { ch with frames := ch.frames ++ [f] }

/-- Read the next message, once it is there. -/
def Channel.read (ch : Channel M) : Option (Frame M × Channel M) :=
  if ch.broken then none else ch.frames[ch.pos]?.map fun f => (f, { ch with pos := ch.pos + 1 })

/-- Reading fails, and does so from now on. -/
def Channel.fail (ch : Channel M) : Channel M := { ch with broken := true }

def Connection.send (conn : Connection M) (f : Frame M) : Connection M :=
  { conn with toClient := conn.toClient.write f }

/-! ## The server's end -/

/-- **The end of the operation that a coroutine waits for**: its outcome, and the connection afterwards. -/
def Suspended.io (conn : Connection M) : Suspended → Io M → Option (JobServer.Outcome M × Connection M)
  | .hello, .ok =>
    match conn.toServer.read with
    | some (.ctrl ctrlmsg, ch) => some (.ctrl ctrlmsg, { conn with toServer := ch })
    | _ => none
  | .hello, .unparsable _ => conn.toServer.read.map fun r => (.failed, { conn with toServer := r.2 })
  | .hello, .failed => some (.failed, { conn with toServer := conn.toServer.fail })
  | .die, .ok => some (.sent, conn.send (.ctrl { command := .die }))
  | .workCtrl ctrlmsg _, .ok => some (.sent, conn.send (.ctrl ctrlmsg))
  | .resendCtrl ctrlmsg _, .ok => some (.sent, conn.send (.ctrl ctrlmsg))
  | .workJob _ _ _, .ok => conn.sending.map fun f => (.sent, conn.send f)
  | .resendJob, .ok => conn.sending.map fun f => (.sent, conn.send f)
  | .die, .failed => some (.failed, conn)
  | .workCtrl _ _, .failed => some (.failed, conn)
  | .resendCtrl _ _, .failed => some (.failed, conn)
  | .workJob _ _ _, .failed => some (.failed, conn)
  | .resendJob, .failed => some (.failed, conn)
  | .result _ _ _ _, .ok =>
    match conn.toServer.read with
    | some (.body _ msg, ch) => some (.result msg, { conn with toServer := ch })
    | _ => none
  | .result _ _ _ _, .unparsable msg =>
    conn.toServer.read.map fun r => (.unparsable msg, { conn with toServer := r.2 })
  | .result _ _ _ _, .failed => some (.failed, { conn with toServer := conn.toServer.fail })
  -- a dropped message is not parsed
  | .drop _ _, .ok => conn.toServer.read.map fun r => (.sent, { conn with toServer := r.2 })
  | .drop _ _, .failed => some (.failed, { conn with toServer := conn.toServer.fail })
  | _, _ => none

/-- What the next operation of the active coroutine means for its connection: it serializes a job before it
starts to send it, or looks a workload ID up. -/
def Connection.prepare (conn : Connection M) (s : JobServer M) : Active → Connection M
  | .sendJob _ _ (front :: _) =>
    { conn with sending := s.data[front]?.map fun d => .body d.workloadID d.msg }
  | .resend _ tempExp => { conn with sending := s.data[tempExp]?.map fun d => .body d.workloadID d.msg }
  | .remove (id :: _) _ => { conn with lookups := conn.lookups ++ [(s.runningJobs.remove id).1] }
  | _ => conn

/-! ## The client's end -/

/-- `ExperimentData` in a buffer of a client. -/
structure ClientJob (M : Type*) where
  msg : M
  workloadID : ℕ
  deriving DecidableEq, Repr

/-- Where a client stands: the next operation on its socket. -/
inductive ClientPc
  /-- The experiment runs. -/
  | running
  /-- `tryToGetExperimentData`: send NEED_WORK. -/
  | needWork (jobSize : ℕ)
  /-- Receive the control message. -/
  | awaitWork
  /-- The loop that receives the announced jobs. -/
  | rcvJobs (ctrlmsg : FailControlMessage) (i : ℕ)
  /-- `sendResultsToServer`: send RESULT_FOLLOWS. -/
  | resultCtrl
  /-- The loop that sends the results. -/
  | sendResults (ctrlmsg : FailControlMessage) (i : ℕ)
  deriving DecidableEq, Repr

/-- **A job client.** -/
structure Client (M : Type*) where
  pc : ClientPc := .running
  /-- The connection of the socket, if it is open. -/
  socket : Option ℕ := none
  /-- `m_parameters` -/
  parameters : List (ClientJob M) := []
  /-- `m_results` -/
  results : List (ClientJob M) := []
  /-- `m_server_runid` -/
  serverRunid : ℕ := 0
  /-- `m_connect_failed` -/
  connectFailed : Bool := false
  /-- What the experiment got from `getParam`. -/
  exp : Option (ClientJob M) := none
  deriving DecidableEq, Repr

/-- The socket is closed and the experiment goes on. -/
def Client.close (cl : Client M) : Client M :=
  { cl with
    pc := .running
    socket := none }

/-- No more jobs can be received. If there is none the socket is left open. -/
def Client.stopReceiving (cl : Client M) : Client M :=
  if cl.parameters.length > 0 then cl.close else { cl with pc := .running }

/-- `NEED_WORK`, for `jobSize` jobs. -/
def Client.needWorkMsg (cl : Client M) (jobSize : ℕ) : FailControlMessage :=
  { command := .needWork, runId := some cl.serverRunid, jobSize := some jobSize }

/-- `RESULT_FOLLOWS`, for all results in the buffer. -/
def Client.resultMsg (cl : Client M) : FailControlMessage :=
  { command := .resultFollows
    workloadID := cl.results.map ClientJob.workloadID
    runId := some cl.serverRunid
    jobSize := some cl.results.length }

/-- **The next operation of a client on its socket**: the client and the connection afterwards, and the workload
ID under which a received body was stored. -/
def Client.io (cl : Client M) (conn : Connection M) :
    ClientPc → Io M → Option (Client M × Connection M × Option ℕ)
  | .needWork jobSize, .ok =>
    some ({ cl with pc := .awaitWork },
      { conn with toServer := conn.toServer.write (.ctrl (cl.needWorkMsg jobSize)) }, none)
  | .needWork _, .failed => some (cl.close, conn, none)
  | .awaitWork, .ok =>
    match conn.toClient.read with
    | some (.ctrl ctrlmsg, ch) =>
      -- now we know the current run ID
      let cl := { cl with serverRunid := ctrlmsg.runId.getD 0 }
      let cl := if ctrlmsg.command = .workFollows then { cl with pc := .rcvJobs ctrlmsg 0 } else cl.close
      some (cl, { conn with toClient := ch }, none)
    | _ => none
  | .awaitWork, .unparsable _ =>
    conn.toClient.read.map fun r => (cl.close, { conn with toClient := r.2 }, none)
  | .awaitWork, .failed => some (cl.close, { conn with toClient := conn.toClient.fail }, none)
  | .rcvJobs ctrlmsg i, io =>
    if i < ctrlmsg.getJobSize then
      match io with
      | .ok =>
        match conn.toClient.read, ctrlmsg.workloadID[i]? with
        | some (.body _ msg, ch), some id =>
          some ({ cl with
            pc := .rcvJobs ctrlmsg (i + 1)
            parameters := cl.parameters ++ [⟨msg, id⟩] }, { conn with toClient := ch }, some id)
        | _, _ => none
      | .unparsable _ =>
        conn.toClient.read.map fun r => (cl.stopReceiving, { conn with toClient := r.2 }, none)
      | .failed => some (cl.stopReceiving, { conn with toClient := conn.toClient.fail }, none)
    else some (cl.close, conn, none)
  | .resultCtrl, .ok =>
    some ({ cl with pc := .sendResults cl.resultMsg 0 },
      { conn with toServer := conn.toServer.write (.ctrl cl.resultMsg) }, none)
  | .resultCtrl, .failed => some (cl.close, conn, none)
  | .sendResults ctrlmsg i, io =>
    if i < ctrlmsg.getJobSize then
      match io, cl.results with
      | .ok, front :: results =>
        some ({ cl with
          pc := .sendResults ctrlmsg (i + 1)
          results := results },
          { conn with toServer := conn.toServer.write (.body front.workloadID front.msg) }, none)
      | .failed, _ => some (cl.close, conn, none)
      | _, _ => none
    else some (cl.close, conn, none)
  | _, _ => none

/-! ## The system -/

/-- A body has been stored into an experiment data object. -/
structure Store where
  conn : ℕ
  /-- The body is a result, received by the server. -/
  toServer : Bool
  /-- The position of the body among the messages of its direction. -/
  frame : ℕ
  /-- The workload ID that the object carries. -/
  id : ℕ
  /-- The object, if it is the server's. -/
  exp : Option Job
  deriving DecidableEq, Repr

/-- **The job server, its clients and the connections between them.** -/
structure Exchange (M : Type*) where
  server : JobServer M
  conns : ℕ → Connection M := fun _ => {}
  /-- The number of connections so far. -/
  nextConn : ℕ := 0
  /-- The connections of the suspended coroutines, in their order. -/
  waiting : List ℕ := []
  /-- The connection of the active coroutine. -/
  activeConn : Option ℕ := none
  clients : ℕ → Client M := fun _ => {}
  /-- Where the bodies have been stored; no code reads it. -/
  stores : List Store := []

namespace Exchange

/-- What a client does. -/
inductive ClientAction (M : Type*)
  /-- `getParam` takes a job from the buffer. -/
  | takeParam
  /-- `getParam` finds the buffer empty and connects to the server, or fails to. -/
  | getWork (jobSize : ℕ) (connected : Bool)
  /-- `sendResult` puts a result into the buffer, with any workload ID. -/
  | sendResult (msg : M) (id : ℕ)
  /-- `sendResultsToServer` connects to the server, or fails to. -/
  | sendResults (connected : Bool)
  /-- The next operation on the socket. -/
  | io (io : Io M)
  deriving DecidableEq, Repr

inductive Action (M : Type*)
  /-- A step of the campaign or of the collecting thread. -/
  | campaign (l : JobServer.Action M)
  /-- The server accepts a connection. -/
  | accept (c : ℕ)
  /-- The active coroutine performs its next operation. -/
  | comm
  /-- The operation ends that the `i`-th suspended coroutine waits for. -/
  | resume (i : ℕ) (io : Io M)
  /-- Client `k` does something. -/
  | client (k : ℕ) (a : ClientAction M)

/-- The coroutine on connection `c` has left the server in state `server`. It is active, or suspended behind the
ones in `waiting`, or has returned. -/
def track (e : Exchange M) (c : ℕ) (server : JobServer M) (waiting : List ℕ) : Exchange M :=
  if server.active.isSome then
    { e with
      server := server
      waiting := waiting
      activeConn := some c }
  else if waiting.length < server.suspended.length then
    { e with
      server := server
      waiting := waiting ++ [c]
      activeConn := none }
  else
    { e with
      server := server
      waiting := waiting
      activeConn := none }

def setConn (e : Exchange M) (c : ℕ) (conn : Connection M) : Exchange M :=
  { e with conns := Function.update e.conns c conn }

def setClient (e : Exchange M) (k : ℕ) (cl : Client M) : Exchange M :=
  { e with clients := Function.update e.clients k cl }

/-- Client `k` opens a new connection. A connection that was left open is closed before. -/
def connect (e : Exchange M) (k : ℕ) (pc : ClientPc) : Exchange M :=
  { e.setClient k { e.clients k with
      pc := pc
      socket := some e.nextConn } with
    nextConn := e.nextConn + 1 }

/-- The body that a resumed coroutine has stored. -/
def storesOf (e : Exchange M) (c : ℕ) : Suspended → JobServer.Outcome M → List Store
  | .result exp _ _ _, .result _ | .result exp _ _ _, .unparsable _ =>
    [⟨c, true, (e.conns c).toServer.pos, e.server.getWorkloadID exp, some exp⟩]
  | _, _ => []

def clientStep (e : Exchange M) (k : ℕ) : ClientAction M → Option (Exchange M)
  | .takeParam =>
    match (e.clients k).pc, (e.clients k).parameters with
    | .running, front :: parameters =>
      some (e.setClient k { e.clients k with
        exp := some front
        parameters := parameters })
    | _, _ => none
  | .getWork jobSize connected =>
    match (e.clients k).pc, (e.clients k).parameters with
    | .running, [] =>
      if connected then
        if (e.clients k).connectFailed then none else some (e.connect k (.needWork jobSize))
      else some (e.setClient k { e.clients k with connectFailed := true })
    | _, _ => none
  | .sendResult msg id =>
    match (e.clients k).pc with
    | .running => some (e.setClient k { e.clients k with results := (e.clients k).results ++ [⟨msg, id⟩] })
    | _ => none
  | .sendResults connected =>
    match (e.clients k).pc, (e.clients k).results with
    | .running, _ :: _ =>
      if connected then
        if (e.clients k).connectFailed then none else some (e.connect k .resultCtrl)
      else
        -- the results are given up
        some (e.setClient k { e.clients k with
          connectFailed := true
          results := [] })
    | _, _ => none
  | .io io =>
    match (e.clients k).socket with
    | none => none
    | some c =>
      ((e.clients k).io (e.conns c) (e.clients k).pc io).map fun r =>
        { (e.setClient k r.1).setConn c r.2.1 with
          stores := e.stores ++ r.2.2.toList.map fun id => ⟨c, false, (e.conns c).toClient.pos, id, none⟩ }

/-- **One step of the system.** -/
def step (e : Exchange M) : Action M → Option (Exchange M)
  | .campaign l =>
    match l with
    | .accept | .resume _ _ | .comm => none
    | l => (e.server.step l).map fun server => { e with server := server }
  | .accept c =>
    if c < e.nextConn ∧ (e.conns c).accepted = false then
      (e.server.step .accept).map fun server =>
        { e.setConn c { e.conns c with accepted := true } with
          server := server
          waiting := e.waiting ++ [c] }
    else none
  | .comm =>
    match e.server.active, e.activeConn with
    | some a, some c =>
      (e.server.commStep a).map fun server =>
        (e.setConn c ((e.conns c).prepare e.server a)).track c server e.waiting
    | _, _ => none
  | .resume i io =>
    match e.server.active, e.server.suspended[i]?, e.waiting[i]? with
    | none, some susp, some c =>
      (susp.io (e.conns c) io).bind fun r =>
        ({ e.server with suspended := e.server.suspended.eraseIdx i }.resumeStep susp r.1).map fun server =>
          { (e.setConn c r.2).track c server (e.waiting.eraseIdx i) with
            stores := e.stores ++ e.storesOf c susp r.1 }
    | _, _, _ => none
  | .client k a => e.clientStep k a

/-- A server that was just constructed, and clients that have not connected yet. -/
def init (runid capacity : ℕ) : Exchange M := { server := .init runid capacity }

end Exchange

end

end FailStar
