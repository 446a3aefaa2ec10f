import FailStar.JobClient.Exchange

/-! # The two ends of a connection

The workload IDs of an exchange are kept apart from the bodies on both ends, and every failure leaves the ends at
different places. This file says how far either end is with its connection, and shows that its operations keep
to that.

* **`Paired`** — the `i`-th body of a channel comes from the object with the `i`-th announced ID.
* **`Active.Speaks`**, **`Suspended.Speaks`**, **`Client.Speaks`** — how far an exchange is on either end.
* **`Suspended.Ends`**, **`Client.Does`** — the operations on a connection, inverted.
* **`commStep_speaks`**, **`resumeStep_speaks`**, **`Client.Does.speaks`** — they keep to the exchange.
* **`Store.Right`** — a body was stored under its own workload ID. -/

namespace FailStar

variable {M : Type*}

/-! ## One direction of a connection -/

/-- **The bodies are in the order of the announced workload IDs**: a control message is the first message, and
the `j`-th body after it was made from the object with the `j`-th ID. -/
def Paired (frames : List (Frame M)) : Prop :=
  (∀ i ctrlmsg, frames[i]? = some (.ctrl ctrlmsg) → i = 0) ∧
  ∀ i id msg, frames[i]? = some (.body id msg) →
    ∃ ctrlmsg j, frames[0]? = some (.ctrl ctrlmsg) ∧ i = j + 1 ∧ ctrlmsg.workloadID[j]? = some id

theorem paired_nil : Paired ([] : List (Frame M)) := ⟨by simp, by simp⟩

theorem paired_ctrl (ctrlmsg : FailControlMessage) : Paired [(.ctrl ctrlmsg : Frame M)] := by
  refine ⟨fun i ctrlmsg' h => ?_, fun i id msg h => ?_⟩
  · have := (List.getElem?_eq_some_iff.mp h).1
    simp only [List.length_singleton] at this
    omega
  · exact absurd (List.mem_of_getElem? h) (by simp)

theorem Channel.paired_write_ctrl {ch : Channel M} {ctrlmsg : FailControlMessage} (hnil : ch.frames = []) :
    Paired (ch.write (.ctrl ctrlmsg)).frames := by
  unfold Channel.write
  rw [hnil]
  exact paired_ctrl ctrlmsg

theorem Paired.workloadID {frames : List (Frame M)} {ctrlmsg : FailControlMessage} {i k id : ℕ} {msg : M}
    (h : Paired frames) (hctrl : frames[0]? = some (.ctrl ctrlmsg)) (hi : i = k + 1)
    (hbody : frames[i]? = some (.body id msg)) : ctrlmsg.workloadID[k]? = some id := by
  obtain ⟨ctrlmsg', j, hctrl', hj, hid⟩ := h.2 i id msg hbody
  rw [hctrl] at hctrl'
  cases hctrl'
  obtain rfl : k = j := by omega
  exact hid

theorem Paired.body {frames bodies : List (Frame M)} {ctrlmsg : FailControlMessage} {id : ℕ} {msg : M}
    (h : Paired frames) (hframes : frames = .ctrl ctrlmsg :: bodies)
    (hid : ctrlmsg.workloadID[bodies.length]? = some id) : Paired (frames ++ [.body id msg]) := by
  have hfirst : (frames ++ [.body id msg])[0]? = some (.ctrl ctrlmsg) := by rw [hframes]; rfl
  refine ⟨fun i ctrlmsg' hi => ?_, fun i id' msg' hi => ?_⟩
  · rw [List.getElem?_append] at hi
    split at hi
    · exact h.1 i ctrlmsg' hi
    · exact absurd (List.mem_of_getElem? hi) (by simp)
  · rw [List.getElem?_append] at hi
    split at hi
    · obtain ⟨ctrlmsg', j, hctrl, hj, hid'⟩ := h.2 i id' msg' hi
      refine ⟨ctrlmsg', j, ?_, hj, hid'⟩
      rw [List.getElem?_append_left (List.getElem?_eq_some_iff.mp hctrl).1, hctrl]
    · rename_i hlen
      obtain ⟨hlt, heq⟩ := List.getElem?_eq_some_iff.mp hi
      simp only [List.length_singleton, Nat.lt_one_iff] at hlt
      simp only [hlt, List.getElem_cons_zero, Frame.body.injEq] at heq
      refine ⟨ctrlmsg, bodies.length, hfirst, ?_, heq.1 ▸ hid⟩
      rw [hframes, List.length_cons] at hlt hlen
      omega

theorem Channel.read_eq_some {ch ch' : Channel M} {f : Frame M} (h : ch.read = some (f, ch')) :
    ch.broken = false ∧ ch.frames[ch.pos]? = some f ∧ ch' = { ch with pos := ch.pos + 1 } := by
  unfold Channel.read at h
  split at h
  · cases h
  · rename_i hbroken
    obtain ⟨f', hf', heq⟩ := Option.map_eq_some_iff.mp h
    obtain ⟨rfl, rfl⟩ := Prod.mk.inj heq
    exact ⟨Bool.eq_false_of_not_eq_true hbroken, hf', rfl⟩

/-! ## How far an exchange is -/

/-- The coroutine has sent the control message and `n` bodies. -/
def Connection.Sent (conn : Connection M) (ctrlmsg : FailControlMessage) (n : ℕ) : Prop :=
  ∃ bodies, conn.toClient.frames = .ctrl ctrlmsg :: bodies ∧ bodies.length = n

/-- The coroutine has serialized the job for the `n`-th ID. -/
def Connection.Sends (conn : Connection M) (ctrlmsg : FailControlMessage) (n : ℕ) : Prop :=
  conn.Sent ctrlmsg n ∧ ∃ id msg, conn.sending = some (.body id msg) ∧ ctrlmsg.workloadID[n]? = some id

/-- The client has announced these IDs, and the coroutine is to read the body after the first `k` ones, if it can
read at all. -/
def Connection.Hears (conn : Connection M) (ids : List ℕ) (k : ℕ) : Prop :=
  (∃ ctrlmsg, conn.toServer.frames[0]? = some (.ctrl ctrlmsg) ∧ ctrlmsg.workloadID = ids) ∧
    (conn.toServer.broken = true ∨ conn.toServer.pos = k + 1)

/-- How far the active coroutine is with its connection. -/
def Active.Speaks (conn : Connection M) : Active → Prop
  | .dequeue _ _ _ _ | .lockPick _ | .pick _ => conn.toClient.frames = []
  | .sendJob ctrlmsg i _ => conn.Sent ctrlmsg i
  | .insertRunning ctrlmsg i _ => conn.Sent ctrlmsg (i + 1)
  | .resend ctrlmsg _ => conn.Sent ctrlmsg 0
  | .lockRemove ids => conn.Hears ids 0 ∧ conn.lookups = []
  | .remove ids msgs => conn.Hears (msgs.map Prod.snd ++ ids) 0 ∧ conn.lookups = msgs.map Prod.fst
  | .receive msgs _ =>
    ∃ ids k, conn.Hears ids k ∧ ids.drop k = msgs.map Prod.snd ∧ conn.lookups.drop k = msgs.map Prod.fst
  | _ => True

/-- How far a suspended coroutine is with its connection. -/
def Suspended.Speaks (conn : Connection M) : Suspended → Prop
  | .hello => conn.toClient.frames = [] ∧ conn.toServer.pos = 0 ∧ conn.lookups = []
  | .die | .workCtrl _ _ | .resendCtrl _ _ => conn.toClient.frames = []
  | .workJob ctrlmsg i _ => conn.Sends ctrlmsg i
  | .resendJob => ∃ ctrlmsg, conn.Sends ctrlmsg 0
  | .result exp id msgs _ =>
    ∃ ids k, conn.Hears ids k ∧ ids.drop k = id :: msgs.map Prod.snd ∧
      conn.lookups.drop k = some exp :: msgs.map Prod.fst
  | .drop msgs _ =>
    ∃ ids k, conn.Hears ids k ∧ ids.drop (k + 1) = msgs.map Prod.snd ∧
      conn.lookups.drop (k + 1) = msgs.map Prod.fst

/-- How far a client is with the connection of its socket. -/
def Client.Speaks (cl : Client M) (conn : Connection M) : ClientPc → Prop
  | .running => True
  | .needWork _ | .resultCtrl => conn.toServer.frames = [] ∧ conn.toClient.pos = 0
  | .awaitWork => conn.toClient.pos = 0
  | .rcvJobs ctrlmsg i => conn.toClient.frames[0]? = some (.ctrl ctrlmsg) ∧ conn.toClient.pos = i + 1
  | .sendResults ctrlmsg i =>
    ∃ bodies, conn.toServer.frames = .ctrl ctrlmsg :: bodies ∧ bodies.length = i ∧
      ctrlmsg.workloadID.drop i = cl.results.map ClientJob.workloadID

/-! ## What either end does to a connection -/

/-- What the coroutine of the server does to a connection. -/
structure ServerSide (conn conn' : Connection M) : Prop where
  toServer : conn'.toServer.frames = conn.toServer.frames
  toClient : conn.toClient.frames <+: conn'.toClient.frames
  pos : conn'.toClient.pos = conn.toClient.pos
  lookups : conn.lookups <+: conn'.lookups

/-- What the client does to a connection. -/
structure ClientSide (conn conn' : Connection M) : Prop where
  toClient : conn'.toClient.frames = conn.toClient.frames
  toServer : conn.toServer.frames <+: conn'.toServer.frames
  pos : conn'.toServer.pos = conn.toServer.pos
  broken : conn'.toServer.broken = conn.toServer.broken
  sending : conn'.sending = conn.sending
  lookups : conn'.lookups = conn.lookups
  accepted : conn'.accepted = conn.accepted

theorem serverSide_refl (conn : Connection M) : ServerSide conn conn :=
  ⟨rfl, List.prefix_rfl, rfl, List.prefix_rfl⟩

theorem clientSide_refl (conn : Connection M) : ClientSide conn conn :=
  ⟨rfl, List.prefix_rfl, rfl, rfl, rfl, rfl, rfl⟩

theorem getElem?_extended {α : Type*} {l l' : List α} {i : ℕ} {x : α} (h : l <+: l') (hi : l[i]? = some x) :
    l'[i]? = some x := by
  obtain ⟨r, rfl⟩ := h
  rw [List.getElem?_append_left (List.getElem?_eq_some_iff.mp hi).1, hi]

variable {conn conn' : Connection M}

theorem Connection.Sent.clientSide {ctrlmsg : FailControlMessage} {n : ℕ} (h : conn.Sent ctrlmsg n)
    (hside : ClientSide conn conn') : conn'.Sent ctrlmsg n := by
  unfold Connection.Sent
  rwa [hside.toClient]

theorem Connection.Sends.clientSide {ctrlmsg : FailControlMessage} {n : ℕ} (h : conn.Sends ctrlmsg n)
    (hside : ClientSide conn conn') : conn'.Sends ctrlmsg n := by
  refine ⟨h.1.clientSide hside, ?_⟩
  rw [hside.sending]
  exact h.2

theorem Connection.Hears.clientSide {ids : List ℕ} {k : ℕ} (h : conn.Hears ids k)
    (hside : ClientSide conn conn') : conn'.Hears ids k := by
  obtain ⟨⟨ctrlmsg, hctrl, hids⟩, hpos⟩ := h
  refine ⟨⟨ctrlmsg, getElem?_extended hside.toServer hctrl, hids⟩, ?_⟩
  rwa [hside.broken, hside.pos]

/-- What a client does is no matter for a coroutine. -/
theorem Active.Speaks.clientSide {a : Active} (h : a.Speaks conn) (hside : ClientSide conn conn') :
    a.Speaks conn' := by
  cases a with
  | dequeue | lockPick | pick => exact hside.toClient.trans h
  | sendJob | insertRunning | resend => exact Connection.Sent.clientSide h hside
  | lockRemove | remove => exact ⟨h.1.clientSide hside, hside.lookups.trans h.2⟩
  | receive =>
    obtain ⟨ids, k, hears, hids, hlookups⟩ := h
    exact ⟨ids, k, hears.clientSide hside, hids, by rw [hside.lookups, hlookups]⟩
  | _ => trivial

theorem Suspended.Speaks.clientSide {c : Suspended} (h : c.Speaks conn) (hside : ClientSide conn conn') :
    c.Speaks conn' := by
  cases c with
  | hello => exact ⟨hside.toClient.trans h.1, hside.pos.trans h.2.1, hside.lookups.trans h.2.2⟩
  | die | workCtrl | resendCtrl => exact hside.toClient.trans h
  | workJob => exact Connection.Sends.clientSide h hside
  | resendJob => exact h.imp fun ctrlmsg hsends => hsends.clientSide hside
  | result | drop =>
    obtain ⟨ids, k, hears, hids, hlookups⟩ := h
    exact ⟨ids, k, hears.clientSide hside, hids, by rw [hside.lookups, hlookups]⟩

/-- What a coroutine does is no matter for its client. -/
theorem Client.Speaks.serverSide {cl : Client M} {pc : ClientPc} (h : cl.Speaks conn pc)
    (hside : ServerSide conn conn') : cl.Speaks conn' pc := by
  cases pc with
  | running => trivial
  | needWork | resultCtrl => exact ⟨hside.toServer.trans h.1, hside.pos.trans h.2⟩
  | awaitWork => exact hside.pos.trans h
  | rcvJobs => exact ⟨getElem?_extended hside.toClient h.1, hside.pos.trans h.2⟩
  | sendResults =>
    obtain ⟨bodies, hframes, hlen, hids⟩ := h
    exact ⟨bodies, hside.toServer.trans hframes, hlen, hids⟩

/-! ## Where bodies are stored -/

/-- **The body was stored under its own workload ID**: it is the `j`-th body after the control message, the
object it was stored into carries the `j`-th announced ID, and so does the object it was made from. If it is a
result, the server had found the object in `m_runningJobs` under this ID. -/
def Store.Right (conn : Connection M) (st : Store) : Prop :=
  ∃ ctrlmsg j msg, (if st.toServer then conn.toServer else conn.toClient).frames[0]? = some (.ctrl ctrlmsg) ∧
    st.frame = j + 1 ∧ ctrlmsg.workloadID[j]? = some st.id ∧
    (if st.toServer then conn.toServer else conn.toClient).frames[st.frame]? = some (.body st.id msg) ∧
    (st.toServer = true → ∃ exp, st.exp = some exp ∧ conn.lookups[j]? = some (some exp))

theorem Store.Right.mono {st : Store} (h : st.Right conn)
    (htoServer : conn.toServer.frames <+: conn'.toServer.frames)
    (htoClient : conn.toClient.frames <+: conn'.toClient.frames)
    (hlookups : conn.lookups <+: conn'.lookups) : st.Right conn' := by
  obtain ⟨ctrlmsg, j, msg, hctrl, hframe, hid, hbody, hlookup⟩ := h
  have hext : (if st.toServer then conn.toServer else conn.toClient).frames <+:
      (if st.toServer then conn'.toServer else conn'.toClient).frames := by
    split
    · exact htoServer
    · exact htoClient
  refine ⟨ctrlmsg, j, msg, getElem?_extended hext hctrl, hframe, hid, getElem?_extended hext hbody, ?_⟩
  intro hserver
  obtain ⟨exp, hexp, hj⟩ := hlookup hserver
  exact ⟨exp, hexp, getElem?_extended hlookups hj⟩

/-! ## The operations of a coroutine -/

/-- The coroutine has read a message. -/
def Connection.taken (conn : Connection M) : Connection M :=
  { conn with toServer := { conn.toServer with pos := conn.toServer.pos + 1 } }

/-- The operation that the coroutine waits for is reading a message. -/
def Suspended.reads : Suspended → Bool
  | .hello | .result _ _ _ _ | .drop _ _ => true
  | _ => false

/-- **How the operation ends that a coroutine waits for.** -/
inductive Suspended.Ends (conn : Connection M) : Suspended → JobServer.Outcome M → Connection M → Prop
  | hello {ctrlmsg} (hframe : conn.toServer.frames[conn.toServer.pos]? = some (.ctrl ctrlmsg)) :
      Ends conn .hello (.ctrl ctrlmsg) conn.taken
  /-- The control message could not be parsed. -/
  | helloIgnored : Ends conn .hello .failed conn.taken
  | readFailed {c} : Ends conn c .failed { conn with toServer := conn.toServer.fail }
  | die : Ends conn .die .sent (conn.send (.ctrl { command := .die }))
  | workCtrl {ctrlmsg exp} : Ends conn (.workCtrl ctrlmsg exp) .sent (conn.send (.ctrl ctrlmsg))
  | resendCtrl {ctrlmsg tempExp} : Ends conn (.resendCtrl ctrlmsg tempExp) .sent (conn.send (.ctrl ctrlmsg))
  | workJob {ctrlmsg i exp f} (hsending : conn.sending = some f) :
      Ends conn (.workJob ctrlmsg i exp) .sent (conn.send f)
  | resendJob {f} (hsending : conn.sending = some f) : Ends conn .resendJob .sent (conn.send f)
  | writeFailed {c} (hwrites : c.reads = false) : Ends conn c .failed conn
  | result {exp id msgs recvd id' msg} (hbroken : conn.toServer.broken = false)
      (hframe : conn.toServer.frames[conn.toServer.pos]? = some (.body id' msg)) :
      Ends conn (.result exp id msgs recvd) (.result msg) conn.taken
  | unparsable {exp id msgs recvd msg f} (hbroken : conn.toServer.broken = false)
      (hframe : conn.toServer.frames[conn.toServer.pos]? = some f) :
      Ends conn (.result exp id msgs recvd) (.unparsable msg) conn.taken
  | dropped {msgs recvd} : Ends conn (.drop msgs recvd) .sent conn.taken

/-- **`Suspended.io` is covered by `Suspended.Ends`.** -/
theorem Suspended.io_cases {c : Suspended} {io : Io M} {o : JobServer.Outcome M}
    (h : c.io conn io = some (o, conn')) : c.Ends conn o conn' := by
  -- by what the coroutine waits for: only reading can end with a message that is not understood
  cases c with
  | hello =>
    cases io with
    | ok =>
      rw [Suspended.io] at h
      split at h
      · rename_i ctrlmsg ch hread
        obtain ⟨-, hframe, rfl⟩ := Channel.read_eq_some hread
        cases h
        exact .hello hframe
      · cases h
    | unparsable =>
      obtain ⟨⟨f, ch⟩, hread, heq⟩ := Option.map_eq_some_iff.mp h
      obtain ⟨-, -, rfl⟩ := Channel.read_eq_some hread
      cases heq
      exact .helloIgnored
    | failed => cases h; exact .readFailed
  | die =>
    cases io with
    | ok => cases h; exact .die
    | unparsable => cases h
    | failed => cases h; exact .writeFailed rfl
  | workCtrl =>
    cases io with
    | ok => cases h; exact .workCtrl
    | unparsable => cases h
    | failed => cases h; exact .writeFailed rfl
  | resendCtrl =>
    cases io with
    | ok => cases h; exact .resendCtrl
    | unparsable => cases h
    | failed => cases h; exact .writeFailed rfl
  | workJob =>
    cases io with
    | ok =>
      obtain ⟨f, hf, heq⟩ := Option.map_eq_some_iff.mp h
      cases heq
      exact .workJob hf
    | unparsable => cases h
    | failed => cases h; exact .writeFailed rfl
  | resendJob =>
    cases io with
    | ok =>
      obtain ⟨f, hf, heq⟩ := Option.map_eq_some_iff.mp h
      cases heq
      exact .resendJob hf
    | unparsable => cases h
    | failed => cases h; exact .writeFailed rfl
  | result =>
    cases io with
    | ok =>
      rw [Suspended.io] at h
      split at h
      · rename_i id' msg ch hread
        obtain ⟨hbroken, hframe, rfl⟩ := Channel.read_eq_some hread
        cases h
        exact .result hbroken hframe
      · cases h
    | unparsable =>
      obtain ⟨⟨f, ch⟩, hread, heq⟩ := Option.map_eq_some_iff.mp h
      obtain ⟨hbroken, hframe, rfl⟩ := Channel.read_eq_some hread
      cases heq
      exact .unparsable hbroken hframe
    | failed => cases h; exact .readFailed
  | drop =>
    cases io with
    | ok =>
      obtain ⟨⟨f, ch⟩, hread, heq⟩ := Option.map_eq_some_iff.mp h
      obtain ⟨-, -, rfl⟩ := Channel.read_eq_some hread
      cases heq
      exact .dropped
    | unparsable => cases h
    | failed => cases h; exact .readFailed

/-- A coroutine only does its own part. -/
theorem Suspended.Ends.serverSide {c : Suspended} {o : JobServer.Outcome M} (h : c.Ends conn o conn') :
    ServerSide conn conn' := by
  have hsend : ∀ f : Frame M, ServerSide conn (conn.send f) := fun f =>
    ⟨rfl, List.prefix_append _ _, rfl, List.prefix_rfl⟩
  cases h with
  | die | workCtrl | resendCtrl | workJob | resendJob => exact hsend _
  | writeFailed => exact serverSide_refl conn
  | _ => exact ⟨rfl, List.prefix_rfl, rfl, List.prefix_rfl⟩

theorem Suspended.Ends.accepted {c : Suspended} {o : JobServer.Outcome M} (h : c.Ends conn o conn') :
    conn'.accepted = conn.accepted := by
  cases h <;> rfl

theorem Connection.Sends.paired {ctrlmsg : FailControlMessage} {n : ℕ} {f : Frame M} (h : conn.Sends ctrlmsg n)
    (hsending : conn.sending = some f) (hpaired : Paired conn.toClient.frames) :
    Paired (conn.send f).toClient.frames := by
  obtain ⟨⟨bodies, hframes, hlen⟩, id, msg, hbody, hid⟩ := h
  obtain rfl : f = .body id msg := Option.some.inj (hsending.symm.trans hbody)
  exact hpaired.body hframes (hlen.symm ▸ hid)

/-- **What a coroutine sends is in the order of the announced IDs.** -/
theorem Suspended.Ends.paired {c : Suspended} {o : JobServer.Outcome M} (h : c.Ends conn o conn')
    (hspeaks : c.Speaks conn) (hpaired : Paired conn.toClient.frames) : Paired conn'.toClient.frames := by
  cases h with
  | die | workCtrl | resendCtrl => exact Channel.paired_write_ctrl hspeaks
  | workJob hsending => exact Connection.Sends.paired hspeaks hsending hpaired
  | resendJob hsending =>
    obtain ⟨ctrlmsg, hsends⟩ := hspeaks
    exact hsends.paired hsending hpaired
  | _ => exact hpaired

theorem Connection.Hears.taken {ids : List ℕ} {k : ℕ} (h : conn.Hears ids k) : conn.taken.Hears ids (k + 1) :=
  ⟨h.1, h.2.imp_right fun hpos => congrArg (· + 1) hpos⟩

/-- If nothing can be read any more, it does not matter which body is to be read. -/
theorem Connection.Hears.fail {ids : List ℕ} {k : ℕ} (h : conn.Hears ids k) (k' : ℕ) :
    ({ conn with toServer := conn.toServer.fail } : Connection M).Hears ids k' :=
  ⟨h.1, Or.inl rfl⟩

theorem drop_succ_of_drop {α : Type*} {l r : List α} {k : ℕ} {x : α} (h : l.drop k = x :: r) :
    l.drop (k + 1) = r := by
  rw [← List.drop_drop, h]
  rfl

theorem getElem?_of_drop {α : Type*} {l r : List α} {k : ℕ} {x : α} (h : l.drop k = x :: r) :
    l[k]? = some x := by
  rw [← Nat.add_zero k, ← List.getElem?_drop, h]
  rfl

namespace JobServer

variable {s s' : JobServer M} {a : Active} {c : Suspended} {o : Outcome M}

/-- The body that was prepared was made from the job that is serialized. -/
theorem prepare_sending (h : s.Addressed) (ha : s.active = some a) {w : Option ℕ} {j : Job}
    (hser : a.serializing = some (w, j)) :
    ∃ id msg, (conn.prepare s a).sending = some (.body id msg) ∧ w = some id := by
  obtain ⟨hlt, rfl⟩ := h.serializing ha hser
  refine ⟨s.getWorkloadID j, s.data[j].msg, ?_, rfl⟩
  have hid : s.getWorkloadID j = s.data[j].workloadID := by
    rw [getWorkloadID, List.getElem?_eq_getElem hlt]
    rfl
  rw [hid]
  cases a with
  | sendJob ctrlmsg i exp =>
    cases exp with
    | nil => cases hser
    | cons front exp =>
      obtain ⟨-, rfl⟩ := Prod.mk.inj (Option.some.inj hser)
      simp [Connection.prepare, List.getElem?_eq_getElem hlt]
  | resend ctrlmsg tempExp =>
    obtain ⟨-, rfl⟩ := Prod.mk.inj (Option.some.inj hser)
    simp [Connection.prepare, List.getElem?_eq_getElem hlt]
  | _ => cases hser

/-- **The active coroutine keeps to the exchange.** -/
theorem commStep_speaks (haddr : s.Addressed) (ha : s.active = some a) (hs : CommStep s a s')
    (h : a.Speaks conn) :
    Goes s s' (Active.Speaks (conn.prepare s a)) (Suspended.Speaks (conn.prepare s a)) := by
  cases hs with
  | dequeue | fallback => exact goes_next h
  | announce | pick | pickNone => exact goes_suspend h
  | sendJob => exact goes_suspend ⟨h, prepare_sending haddr ha rfl⟩
  | insertRunning => exact goes_sendLoop h
  | resend => exact goes_suspend ⟨_, h, prepare_sending haddr ha rfl⟩
  | lock hl =>
    cases hl with
    | pick | remove => exact goes_next h
    | put => exact goes_next trivial
  | removed =>
    obtain ⟨hears, hlookups⟩ := h
    rw [List.append_nil] at hears
    exact goes_next ⟨_, 0, hears, rfl, hlookups⟩
  | remove hid =>
    obtain ⟨hears, hlookups⟩ := h
    refine goes_next ⟨?_, ?_⟩
    · rwa [List.map_append, List.append_assoc]
    · simp [Connection.prepare, SynchronizedMap.remove_of_present hid, hlookups]
  | removeNone hid =>
    obtain ⟨hears, hlookups⟩ := h
    refine goes_next ⟨?_, ?_⟩
    · rwa [List.map_append, List.append_assoc]
    · simp [Connection.prepare, SynchronizedMap.remove_of_absent hid, hlookups]
  | receive => exact goes_suspend h
  | drop =>
    obtain ⟨ids, k, hears, hids, hlookups⟩ := h
    exact goes_suspend ⟨ids, k, hears, drop_succ_of_drop hids, drop_succ_of_drop hlookups⟩
  | received | stored | requeue | putDone | putRunning | testUndone => exact goes_next trivial
  | requeued | undoneLeft | complete | incomplete => exact goes_finish

theorem prepare_serverSide : ServerSide conn (conn.prepare s a) := by
  unfold Connection.prepare
  split
  · exact ⟨rfl, List.prefix_rfl, rfl, List.prefix_rfl⟩
  · exact ⟨rfl, List.prefix_rfl, rfl, List.prefix_rfl⟩
  · exact ⟨rfl, List.prefix_rfl, rfl, List.prefix_append _ _⟩
  · exact serverSide_refl conn

theorem prepare_toClient : (conn.prepare s a).toClient = conn.toClient := by
  unfold Connection.prepare
  split <;> rfl

theorem prepare_accepted : (conn.prepare s a).accepted = conn.accepted := by
  unfold Connection.prepare
  split <;> rfl

theorem sent_of_sends {ctrlmsg : FailControlMessage} {n : ℕ} {f : Frame M} (h : conn.Sends ctrlmsg n) :
    (conn.send f).Sent ctrlmsg (n + 1) := by
  obtain ⟨⟨bodies, hframes, hlen⟩, -⟩ := h
  refine ⟨bodies ++ [f], ?_, ?_⟩
  · show conn.toClient.frames ++ [f] = _
    rw [hframes]
    rfl
  · rw [List.length_append, hlen]
    rfl

/-- **A resumed coroutine keeps to the exchange.** -/
theorem resumeStep_speaks (ha : s.active = none) (hs : ResumeStep s c o s') (hends : c.Ends conn o conn')
    (h : c.Speaks conn) : Goes s s' (Active.Speaks conn') (Suspended.Speaks conn') := by
  have hctrl : ∀ ctrlmsg, conn.toClient.frames = [] → (conn.send (.ctrl ctrlmsg)).Sent ctrlmsg 0 := by
    intro ctrlmsg hnil
    refine ⟨[], ?_, rfl⟩
    show conn.toClient.frames ++ [.ctrl ctrlmsg] = _
    rw [hnil]
    rfl
  cases hs with
  | helloFailed | died | announceFailed | resendEnds | resent => exact Or.inr (Or.inr ⟨ha, rfl⟩)
  | helloDie =>
    cases hends
    exact goes_suspend h.1
  | needWork =>
    cases hends
    exact goes_next h.1
  | resultFollows =>
    cases hends with
    | hello hframe =>
      rw [h.2.1] at hframe
      exact goes_next ⟨⟨⟨_, hframe, rfl⟩, Or.inr (congrArg (· + 1) h.2.1)⟩, h.2.2⟩
  | oldResult => exact goes_finish
  | announced =>
    cases hends
    exact goes_sendLoop (hctrl _ h)
  | jobSent =>
    cases hends
    exact goes_next (sent_of_sends h)
  | jobFailed => exact goes_next trivial
  | resendAnnounced =>
    cases hends
    exact goes_next (hctrl _ h)
  | result | unparsable =>
    obtain ⟨ids, k, hears, hids, hlookups⟩ := h
    cases hends
    exact goes_next ⟨ids, k + 1, hears.taken, drop_succ_of_drop hids, drop_succ_of_drop hlookups⟩
  | resultFailed =>
    obtain ⟨ids, k, hears, hids, hlookups⟩ := h
    cases hends with
    | readFailed =>
      exact goes_next ⟨ids, k + 1, hears.fail _, drop_succ_of_drop hids, drop_succ_of_drop hlookups⟩
    | writeFailed hwrites => cases hwrites
  | dropped =>
    obtain ⟨ids, k, hears, hids, hlookups⟩ := h
    cases hends with
    | dropped => exact goes_next ⟨ids, k + 1, hears.taken, hids, hlookups⟩
    | readFailed => exact goes_next ⟨ids, k + 1, hears.fail _, hids, hlookups⟩
    | writeFailed hwrites => cases hwrites

end JobServer

/-- **A result is stored into the job that carries its workload ID**, also if it could not be parsed. -/
theorem Suspended.Speaks.right {exp : Job} {id : ℕ} {msgs : Msgs} {recvd : Recvd} {f : Frame M} {c : ℕ}
    (h : (Suspended.result exp id msgs recvd).Speaks conn) (hpaired : Paired conn.toServer.frames)
    (hbroken : conn.toServer.broken = false) (hframe : conn.toServer.frames[conn.toServer.pos]? = some f) :
    Store.Right conn ⟨c, true, conn.toServer.pos, id, some exp⟩ := by
  obtain ⟨ids, k, ⟨⟨ctrlmsg, hctrl, rfl⟩, hpos⟩, hids, hlookups⟩ := h
  replace hpos : conn.toServer.pos = k + 1 := hpos.resolve_left (by simp [hbroken])
  have hid : ctrlmsg.workloadID[k]? = some id := getElem?_of_drop hids
  cases f with
  | ctrl ctrlmsg' =>
    -- only the first message is a control message
    have := hpaired.1 _ _ hframe
    omega
  | body id' msg =>
    have hid' := hpaired.workloadID hctrl hpos hframe
    obtain rfl : id = id' := Option.some.inj (hid.symm.trans hid')
    exact ⟨ctrlmsg, k, msg, hctrl, hpos, hid, hframe, fun _ => ⟨exp, rfl, getElem?_of_drop hlookups⟩⟩

/-! ## The operations of a client -/

/-- **The operations of a client on its socket.** The last argument is the workload ID under which a body was
stored. -/
inductive Client.Does (cl : Client M) (conn : Connection M) :
    ClientPc → Client M → Connection M → Option ℕ → Prop
  /-- The exchange is over, or given up. -/
  | close {pc ch runid} (hframes : ch.frames = conn.toClient.frames) :
      Does cl conn pc { cl.close with serverRunid := runid } { conn with toClient := ch } none
  /-- The exchange is given up, with the socket left open. -/
  | leave {pc ch} (hframes : ch.frames = conn.toClient.frames) :
      Does cl conn pc { cl with pc := .running } { conn with toClient := ch } none
  | needWork {jobSize} :
      Does cl conn (.needWork jobSize) { cl with pc := .awaitWork }
        { conn with toServer := conn.toServer.write (.ctrl (cl.needWorkMsg jobSize)) } none
  | workFollows {ctrlmsg runid}
      (hframe : conn.toClient.frames[conn.toClient.pos]? = some (.ctrl ctrlmsg)) :
      Does cl conn .awaitWork
        { cl with
          serverRunid := runid
          pc := .rcvJobs ctrlmsg 0 }
        { conn with toClient := { conn.toClient with pos := conn.toClient.pos + 1 } } none
  | rcvJob {ctrlmsg i id' msg id}
      (hframe : conn.toClient.frames[conn.toClient.pos]? = some (.body id' msg))
      (hid : ctrlmsg.workloadID[i]? = some id) :
      Does cl conn (.rcvJobs ctrlmsg i)
        { cl with
          pc := .rcvJobs ctrlmsg (i + 1)
          parameters := cl.parameters ++ [⟨msg, id⟩] }
        { conn with toClient := { conn.toClient with pos := conn.toClient.pos + 1 } } (some id)
  | resultCtrl :
      Does cl conn .resultCtrl { cl with pc := .sendResults cl.resultMsg 0 }
        { conn with toServer := conn.toServer.write (.ctrl cl.resultMsg) } none
  | sendResult {ctrlmsg i front results} (hresults : cl.results = front :: results) :
      Does cl conn (.sendResults ctrlmsg i)
        { cl with
          pc := .sendResults ctrlmsg (i + 1)
          results := results }
        { conn with toServer := conn.toServer.write (.body front.workloadID front.msg) } none

variable {cl cl' : Client M} {pc : ClientPc} {stored : Option ℕ}

theorem Client.does_stopReceiving {ch : Channel M} (hframes : ch.frames = conn.toClient.frames) :
    cl.Does conn pc cl.stopReceiving { conn with toClient := ch } none := by
  unfold Client.stopReceiving
  split
  · exact .close hframes
  · exact .leave hframes

/-- **`Client.io` is covered by `Client.Does`.** -/
theorem Client.io_cases {io : Io M} (h : cl.io conn pc io = some (cl', conn', stored)) :
    cl.Does conn pc cl' conn' stored := by
  cases pc with
  | running => cases io <;> cases h
  | needWork jobSize =>
    cases io with
    | ok => cases h; exact .needWork
    | unparsable => cases h
    | failed => cases h; exact .close rfl
  | awaitWork =>
    cases io with
    | ok =>
      rw [Client.io] at h
      split at h
      · rename_i ctrlmsg ch hread
        obtain ⟨-, hframe, rfl⟩ := Channel.read_eq_some hread
        dsimp only at h
        split at h
        · cases h
          exact .workFollows hframe
        · cases h
          exact .close rfl
      · cases h
    | unparsable =>
      obtain ⟨⟨f, ch⟩, hread, heq⟩ := Option.map_eq_some_iff.mp h
      obtain ⟨-, -, rfl⟩ := Channel.read_eq_some hread
      cases heq
      exact .close rfl
    | failed => cases h; exact .close rfl
  | rcvJobs ctrlmsg i =>
    unfold Client.io at h
    dsimp only at h
    -- a job for each number the server has announced
    split at h
    · cases io with
      | ok =>
        dsimp only at h
        split at h
        · rename_i id' msg ch id hread hid
          obtain ⟨-, hframe, rfl⟩ := Channel.read_eq_some hread
          cases h
          exact .rcvJob hframe hid
        · cases h
      | unparsable =>
        obtain ⟨⟨f, ch⟩, hread, heq⟩ := Option.map_eq_some_iff.mp h
        obtain ⟨-, -, rfl⟩ := Channel.read_eq_some hread
        cases heq
        exact Client.does_stopReceiving rfl
      | failed => cases h; exact Client.does_stopReceiving rfl
    · cases h
      exact .close rfl
  | resultCtrl =>
    cases io with
    | ok => cases h; exact .resultCtrl
    | unparsable => cases h
    | failed => cases h; exact .close rfl
  | sendResults ctrlmsg i =>
    unfold Client.io at h
    dsimp only at h
    split at h
    · split at h
      · rename_i front results hresults
        cases h
        exact .sendResult hresults
      · cases h
        exact .close rfl
      · cases h
    · cases h
      exact .close rfl

theorem Client.Does.clientSide (h : cl.Does conn pc cl' conn' stored) : ClientSide conn conn' := by
  cases h with
  | close hframes | leave hframes => exact ⟨hframes, List.prefix_rfl, rfl, rfl, rfl, rfl, rfl⟩
  | needWork | resultCtrl | sendResult => exact ⟨rfl, List.prefix_append _ _, rfl, rfl, rfl, rfl, rfl⟩
  | workFollows | rcvJob => exact ⟨rfl, List.prefix_rfl, rfl, rfl, rfl, rfl, rfl⟩

theorem Client.Does.socket (h : cl.Does conn pc cl' conn' stored) :
    cl'.socket = none ∨ cl'.socket = cl.socket := by
  cases h with
  | close => exact Or.inl rfl
  | _ => exact Or.inr rfl

/-- A new job is one that was stored. -/
theorem Client.Does.parameters (h : cl.Does conn pc cl' conn' stored) :
    ∀ job ∈ cl'.parameters, job ∈ cl.parameters ∨ stored = some job.workloadID := by
  intro job hjob
  cases h with
  | rcvJob =>
    obtain hjob | hjob := List.mem_append.mp hjob
    · exact Or.inl hjob
    · rw [List.mem_singleton.mp hjob]
      exact Or.inr rfl
  | _ => exact Or.inl hjob

/-- **A client keeps to the exchange.** -/
theorem Client.Does.speaks (h : cl.Does conn pc cl' conn' stored) (hspeaks : cl.Speaks conn pc) :
    cl'.Speaks conn' cl'.pc := by
  cases h with
  | close | leave => trivial
  | needWork => exact hspeaks.2
  | workFollows hframe =>
    rw [hspeaks] at hframe
    exact ⟨hframe, congrArg (· + 1) hspeaks⟩
  | rcvJob => exact ⟨hspeaks.1, congrArg (· + 1) hspeaks.2⟩
  | resultCtrl =>
    refine ⟨[], ?_, rfl, rfl⟩
    show conn.toServer.frames ++ [.ctrl cl.resultMsg] = _
    rw [hspeaks.1]
    rfl
  | sendResult hresults =>
    rename_i ctrlmsg i front results
    obtain ⟨bodies, hframes, hlen, hids⟩ := hspeaks
    refine ⟨bodies ++ [.body front.workloadID front.msg], ?_, ?_, ?_⟩
    · show conn.toServer.frames ++ _ = _
      rw [hframes]
      rfl
    · rw [List.length_append, hlen]
      rfl
    · rw [hresults] at hids
      exact drop_succ_of_drop hids

/-- **What a client sends is in the order of the announced IDs**, as they are those of the results in its
buffer. -/
theorem Client.Does.paired (h : cl.Does conn pc cl' conn' stored) (hspeaks : cl.Speaks conn pc)
    (hpaired : Paired conn.toServer.frames) : Paired conn'.toServer.frames := by
  cases h with
  | needWork | resultCtrl => exact Channel.paired_write_ctrl hspeaks.1
  | sendResult hresults =>
    obtain ⟨bodies, hframes, hlen, hids⟩ := hspeaks
    rw [hresults] at hids
    exact hpaired.body hframes (hlen.symm ▸ getElem?_of_drop hids)
  | _ => exact hpaired

/-- **A job is stored under its own workload ID.** -/
theorem Client.Does.right {id c : ℕ} (h : cl.Does conn pc cl' conn' (some id)) (hspeaks : cl.Speaks conn pc)
    (hpaired : Paired conn.toClient.frames) : Store.Right conn ⟨c, false, conn.toClient.pos, id, none⟩ := by
  cases h with
  | rcvJob hframe hid =>
    rename_i ctrlmsg i id' msg
    obtain ⟨hctrl, hpos⟩ := hspeaks
    have hid' := hpaired.workloadID hctrl hpos hframe
    obtain rfl : id = id' := Option.some.inj (hid.symm.trans hid')
    exact ⟨ctrlmsg, i, msg, hctrl, hpos, hid, hframe, by simp⟩

end FailStar
