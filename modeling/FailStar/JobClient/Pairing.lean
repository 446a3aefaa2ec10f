import FailStar.JobClient.Ends

/-! # Bodies and workload IDs

The invariant of the job server, its clients and their connections: both ends of every connection are where
`Ends` says. A step of the server changes a connection as the server does, a step of a client as a client does,
and neither disturbs the other end or another connection.

* **`Serving`**, **`Asking`** — the server's ends and the clients' ends; **`Conversing`** — the whole system.
* **`Step`**, **`step_cases`** — the steps of the system, inverted.
* **`Recorded`** — a step that stores a body records it.
* **`bodies_paired`** — every body that is stored is stored under its own workload ID. -/

namespace FailStar

namespace Exchange

variable {M : Type*} {e e' : Exchange M}

/-- **The coroutines keep to their exchanges.** -/
structure Serving (e : Exchange M) : Prop where
  labelled : e.server.Labelled
  active : Option.Rel (fun c a => a.Speaks (e.conns c)) e.activeConn e.server.active
  waiting : List.Forall₂ (fun c susp => susp.Speaks (e.conns c)) e.waiting e.server.suspended
  /-- Every coroutine has a connection of its own. -/
  nodup : (e.activeConn.toList ++ e.waiting).Nodup
  accepted : ∀ c ∈ e.activeConn.toList ++ e.waiting, (e.conns c).accepted = true
  /-- Nothing has happened yet at the server's end of a connection that it has not accepted. -/
  fresh : ∀ c, (e.conns c).accepted = false →
    (e.conns c).toClient.frames = [] ∧ (e.conns c).toServer.pos = 0 ∧ (e.conns c).lookups = []

/-- **The clients keep to their exchanges.** -/
structure Asking (e : Exchange M) : Prop where
  speaks : ∀ k c, (e.clients k).socket = some c → (e.clients k).Speaks (e.conns c) (e.clients k).pc
  /-- Every client has a connection of its own. -/
  socket_inj : ∀ k k' c, (e.clients k).socket = some c → (e.clients k').socket = some c → k = k'
  socket_lt : ∀ k c, (e.clients k).socket = some c → c < e.nextConn
  unused : ∀ c, e.nextConn ≤ c → e.conns c = {}

/-- **The invariant of the system.** -/
structure Conversing (e : Exchange M) : Prop where
  serving : e.Serving
  asking : e.Asking
  paired : ∀ c, Paired (e.conns c).toServer.frames ∧ Paired (e.conns c).toClient.frames
  stores : ∀ st ∈ e.stores, st.Right (e.conns st.conn)

theorem conversing_init (runid capacity : ℕ) : (init runid capacity : Exchange M).Conversing where
  serving :=
    { labelled := JobServer.labelled_init runid capacity
      active := .none
      waiting := .nil
      nodup := List.nodup_nil
      accepted := by simp [init]
      fresh := fun _ _ => ⟨rfl, rfl, rfl⟩ }
  asking :=
    { speaks := by simp [init]
      socket_inj := by simp [init]
      socket_lt := by simp [init]
      unused := fun _ _ => rfl }
  paired _ := ⟨paired_nil, paired_nil⟩
  stores := by simp [init]

/-! ## One connection changes -/

section Connection

variable {c : ℕ} {conn : Connection M}

@[simp] theorem setConn_self : (e.setConn c conn).conns c = conn := by
  exact Function.update_self c conn e.conns

@[simp] theorem setConn_of_ne {c' : ℕ} (h : c' ≠ c) : (e.setConn c conn).conns c' = e.conns c' := by
  exact Function.update_of_ne h conn e.conns

/-- What holds between a connection and itself, and for the one that changes, holds for all. -/
theorem setConn_rel {R : Connection M → Connection M → Prop} (hrefl : ∀ conn, R conn conn)
    (h : R (e.conns c) conn) (c' : ℕ) : R (e.conns c') ((e.setConn c conn).conns c') := by
  by_cases hc' : c' = c
  · subst hc'
    rwa [setConn_self]
  · rw [setConn_of_ne hc']
    exact hrefl _

theorem rel_imp {α β : Type*} {R S : α → β → Prop} (h : ∀ a b, R a b → S a b) {x : Option α} {y : Option β}
    (hrel : Option.Rel R x y) : Option.Rel S x y := by
  cases hrel with
  | some hR => exact .some (h _ _ hR)
  | none => exact .none

theorem rel_setConn {x : Option ℕ} {active : Option Active} (hc : c ∉ x.toList)
    (h : Option.Rel (fun c a => a.Speaks (e.conns c)) x active) :
    Option.Rel (fun c' a => a.Speaks ((e.setConn c conn).conns c')) x active := by
  cases h with
  | some hspeaks =>
    refine .some ?_
    rwa [setConn_of_ne (fun heq => hc (by simp [heq]))]
  | none => exact .none

theorem forall₂_setConn {ws : List ℕ} {suspended : List Suspended} (hc : c ∉ ws)
    (h : List.Forall₂ (fun c susp => susp.Speaks (e.conns c)) ws suspended) :
    List.Forall₂ (fun c' susp => susp.Speaks ((e.setConn c conn).conns c')) ws suspended := by
  induction h with
  | nil => exact .nil
  | @cons c' susp ws suspended hspeaks _ ih =>
    rw [List.mem_cons, not_or] at hc
    refine .cons ?_ (ih hc.2)
    rwa [setConn_of_ne (Ne.symm hc.1)]

theorem Asking.lt_of_accepted (h : e.Asking) (hc : (e.conns c).accepted = true) : c < e.nextConn := by
  by_contra hge
  rw [h.unused c (Nat.not_lt.mp hge)] at hc
  cases hc

theorem Asking.unused_setConn (h : e.Asking) (hc : c < e.nextConn) {c' : ℕ} (hc' : e.nextConn ≤ c') :
    (e.setConn c conn).conns c' = {} := by
  have hne : c' ≠ c := by
    rintro rfl
    exact absurd hc (Nat.not_lt.mpr hc')
  rw [setConn_of_ne hne]
  exact h.unused c' hc'

/-- The server's part of a connection is no matter for the clients. -/
theorem Asking.setConn (h : e.Asking) (hc : c < e.nextConn) (hside : ServerSide (e.conns c) conn) :
    (e.setConn c conn).Asking where
  speaks k c' hsocket := (h.speaks k c' hsocket).serverSide (setConn_rel serverSide_refl hside c')
  socket_inj := h.socket_inj
  socket_lt := h.socket_lt
  unused _ hc' := h.unused_setConn hc hc'

/-- A client's part of a connection is no matter for the server. -/
theorem Serving.setConn (h : e.Serving) (hside : ClientSide (e.conns c) conn) :
    (e.setConn c conn).Serving := by
  have hsides := setConn_rel (R := ClientSide) clientSide_refl hside
  refine ⟨h.labelled, ?_, ?_, h.nodup, ?_, ?_⟩
  · exact rel_imp (fun c' a hspeaks => hspeaks.clientSide (hsides c')) h.active
  · exact h.waiting.imp fun c' susp hspeaks => hspeaks.clientSide (hsides c')
  · intro c' hc'
    rw [(hsides c').accepted]
    exact h.accepted c' hc'
  · intro c' hc'
    rw [(hsides c').accepted] at hc'
    rw [(hsides c').toClient, (hsides c').pos, (hsides c').lookups]
    exact h.fresh c' hc'

/-- What happens at the server's end of one connection leaves the others fresh. -/
theorem Serving.fresh_setConn (h : e.Serving) (hconn : conn.accepted = true) (c' : ℕ)
    (hc' : ((e.setConn c conn).conns c').accepted = false) :
    ((e.setConn c conn).conns c').toClient.frames = [] ∧ ((e.setConn c conn).conns c').toServer.pos = 0 ∧
      ((e.setConn c conn).conns c').lookups = [] := by
  by_cases heq : c' = c
  · subst heq
    rw [setConn_self, hconn] at hc'
    cases hc'
  · rw [setConn_of_ne heq] at hc' ⊢
    exact h.fresh c' hc'

theorem accepted_setConn (hconn : conn.accepted = true) {ws : List ℕ}
    (h : ∀ c' ∈ ws, (e.conns c').accepted = true) (c' : ℕ) (hc' : c' ∈ c :: ws) :
    ((e.setConn c conn).conns c').accepted = true := by
  by_cases heq : c' = c
  · subst heq
    rwa [setConn_self]
  · rw [setConn_of_ne heq]
    exact h c' ((List.mem_cons.mp hc').resolve_left heq)

/-- **A coroutine has gone on**, on its connection `c`. -/
theorem Serving.track {s₀ server : JobServer M} {ws : List ℕ} (h : e.Serving) (hlabelled : server.Labelled)
    (hgoes : JobServer.Goes s₀ server (Active.Speaks conn) (Suspended.Speaks conn))
    (hws : List.Forall₂ (fun c susp => susp.Speaks (e.conns c)) ws s₀.suspended)
    (hnodup : (c :: ws).Nodup) (haccepted : ∀ c' ∈ ws, (e.conns c').accepted = true)
    (hconn : conn.accepted = true) : ((e.setConn c conn).track c server ws).Serving := by
  obtain ⟨hc, hws_nodup⟩ := List.nodup_cons.mp hnodup
  have hlen := hws.length_eq
  replace hws : List.Forall₂ (fun c' susp => susp.Speaks ((e.setConn c conn).conns c')) ws s₀.suspended :=
    forall₂_setConn hc hws
  replace haccepted := accepted_setConn (e := e) (c := c) hconn haccepted
  have hfresh := h.fresh_setConn (c := c) hconn
  unfold Exchange.track
  obtain ⟨a', hactive, hsusp, hspeaks⟩ | ⟨c', hactive, hsusp, hspeaks⟩ | ⟨hactive, hsusp⟩ := hgoes
  · rw [if_pos (by simp [hactive])]
    refine ⟨hlabelled, ?_, ?_, hnodup, haccepted, hfresh⟩
    · show Option.Rel _ (some c) server.active
      rw [hactive]
      exact .some (by rwa [setConn_self])
    · show List.Forall₂ _ ws server.suspended
      rwa [hsusp]
  · rw [if_neg (by simp [hactive]), if_pos (by simp [hsusp, hlen])]
    refine ⟨hlabelled, ?_, ?_, ?_, ?_, hfresh⟩
    · show Option.Rel _ none server.active
      rw [hactive]
      exact .none
    · show List.Forall₂ _ (ws ++ [c]) server.suspended
      rw [hsusp]
      exact List.rel_append hws (.cons (by rwa [setConn_self]) .nil)
    · exact (List.perm_append_singleton c ws).nodup_iff.mpr hnodup
    · intro c' hc'
      exact haccepted c' ((List.perm_append_singleton c ws).mem_iff.mp hc')
  · rw [if_neg (by simp [hactive]), if_neg (by simp [hsusp, hlen])]
    refine ⟨hlabelled, ?_, ?_, hws_nodup, ?_, hfresh⟩
    · show Option.Rel _ none server.active
      rw [hactive]
      exact .none
    · show List.Forall₂ _ ws server.suspended
      rwa [hsusp]
    · intro c' hc'
      exact haccepted c' (List.mem_cons_of_mem c hc')

/-- **The server has done something on connection `c`.** -/
theorem Conversing.serve {stores : List Store} (h : e.Conversing) (hc : c < e.nextConn)
    (hside : ServerSide (e.conns c) conn) (hpaired : Paired conn.toClient.frames) (hserving : e'.Serving)
    (hconns : e'.conns = (e.setConn c conn).conns) (hclients : e'.clients = e.clients)
    (hnext : e'.nextConn = e.nextConn) (hstores : e'.stores = e.stores ++ stores)
    (hright : ∀ st ∈ stores, st.Right (e.conns st.conn)) : e'.Conversing := by
  have hsides := setConn_rel (R := ServerSide) serverSide_refl hside
  have hasking := h.asking.setConn hc hside
  refine ⟨hserving, ?_, ?_, ?_⟩
  · refine ⟨?_, ?_, ?_, ?_⟩
    · rw [hclients, hconns]
      exact hasking.speaks
    · rw [hclients]
      exact hasking.socket_inj
    · rw [hclients, hnext]
      exact hasking.socket_lt
    · rw [hnext, hconns]
      exact hasking.unused
  · intro c'
    rw [hconns]
    refine ⟨?_, ?_⟩
    · rw [(hsides c').toServer]
      exact (h.paired c').1
    · by_cases heq : c' = c
      · subst heq
        rwa [setConn_self]
      · rw [setConn_of_ne heq]
        exact (h.paired c').2
  · intro st hst
    rw [hstores] at hst
    have hst : st.Right (e.conns st.conn) := (List.mem_append.mp hst).elim (h.stores st) (hright st)
    rw [hconns]
    have hside := hsides st.conn
    exact hst.mono (hside.toServer ▸ List.prefix_rfl) hside.toClient hside.lookups

end Connection

/-! ## The server's steps -/

section Server

variable {server : JobServer M} {c : ℕ}

theorem track_eq (e : Exchange M) (c : ℕ) (server : JobServer M) (ws : List ℕ) :
    ∃ activeConn waiting, e.track c server ws =
      { e with
        server := server
        waiting := waiting
        activeConn := activeConn } := by
  unfold track
  split
  · exact ⟨_, _, rfl⟩
  · split
    · exact ⟨_, _, rfl⟩
    · exact ⟨_, _, rfl⟩

theorem rel_none {α β : Type*} {R : α → β → Prop} {x : Option α} (h : Option.Rel R x none) : x = none := by
  cases h
  rfl

theorem forall₂_extract {α β : Type*} {R : α → β → Prop} {l : List α} {l' : List β} {i : ℕ} {x : α} {y : β}
    (h : List.Forall₂ R l l') (hx : l[i]? = some x) (hy : l'[i]? = some y) :
    R x y ∧ List.Forall₂ R (l.eraseIdx i) (l'.eraseIdx i) := by
  induction h generalizing i with
  | nil => cases hx
  | cons hR hrest ih =>
    cases i with
    | zero =>
      cases hx
      cases hy
      exact ⟨hR, hrest⟩
    | succ i =>
      obtain ⟨hxy, herase⟩ := ih hx hy
      exact ⟨hxy, .cons hR herase⟩

theorem Conversing.comm {a : Active} (h : e.Conversing) (ha : e.server.active = some a)
    (hc : e.activeConn = some c) (hs : JobServer.CommStep e.server a server) :
    ((e.setConn c ((e.conns c).prepare e.server a)).track c server e.waiting).Conversing := by
  have hspeaks : a.Speaks (e.conns c) := by
    have hactive := h.serving.active
    rw [ha, hc] at hactive
    cases hactive
    assumption
  have hnodup : (c :: e.waiting).Nodup := by
    have hnodup := h.serving.nodup
    rwa [hc] at hnodup
  have haccepted : ∀ c' ∈ c :: e.waiting, (e.conns c').accepted = true := by
    have haccepted := h.serving.accepted
    rwa [hc] at haccepted
  have hacc := haccepted c List.mem_cons_self
  have hserving := h.serving.track (JobServer.step_labelled h.serving.labelled (.comm ha hs))
    (JobServer.commStep_speaks h.serving.labelled.addressed ha hs hspeaks) h.serving.waiting hnodup
    (fun c' hc' => haccepted c' (List.mem_cons_of_mem c hc')) (JobServer.prepare_accepted.trans hacc)
  obtain ⟨activeConn, waiting, heq⟩ := track_eq (e.setConn c ((e.conns c).prepare e.server a)) c server e.waiting
  rw [heq] at hserving ⊢
  refine h.serve (h.asking.lt_of_accepted hacc) JobServer.prepare_serverSide ?_ hserving rfl rfl rfl
    (List.append_nil _).symm (by simp)
  rw [JobServer.prepare_toClient]
  exact (h.paired c).2

/-- A result that is read is stored into the job that carries its workload ID. -/
theorem Conversing.right_result {exp : Job} {id : ℕ} {msgs : Msgs} {recvd : Recvd} {f : Frame M}
    (h : e.Conversing) (hsusp : Suspended.result exp id msgs recvd ∈ e.server.suspended)
    (hspeaks : (Suspended.result exp id msgs recvd).Speaks (e.conns c))
    (hbroken : (e.conns c).toServer.broken = false)
    (hframe : (e.conns c).toServer.frames[(e.conns c).toServer.pos]? = some f) :
    Store.Right (e.conns c) ⟨c, true, (e.conns c).toServer.pos, e.server.getWorkloadID exp, some exp⟩ := by
  have hfound : e.server.Found exp id := Or.inr (Or.inr ⟨_, hsusp, List.mem_cons_self⟩)
  rw [h.serving.labelled.found exp id hfound]
  exact hspeaks.right (h.paired c).1 hbroken hframe

theorem Conversing.right_storesOf {susp : Suspended} {o : JobServer.Outcome M} {conn : Connection M}
    (h : e.Conversing) (hsusp : susp ∈ e.server.suspended) (hspeaks : susp.Speaks (e.conns c))
    (hends : susp.Ends (e.conns c) o conn) :
    ∀ st ∈ e.storesOf c susp o, st.Right (e.conns st.conn) := by
  intro st hst
  cases hends with
  | result hbroken hframe | unparsable hbroken hframe =>
    rw [List.mem_singleton.mp hst]
    exact h.right_result hsusp hspeaks hbroken hframe
  | readFailed | writeFailed => cases susp <;> cases hst
  | _ => cases hst

theorem Conversing.resume {i : ℕ} {susp : Suspended} {o : JobServer.Outcome M} {conn : Connection M}
    (h : e.Conversing) (ha : e.server.active = none) (hsusp : e.server.suspended[i]? = some susp)
    (hc : e.waiting[i]? = some c) (hends : susp.Ends (e.conns c) o conn)
    (hs : JobServer.ResumeStep { e.server with suspended := e.server.suspended.eraseIdx i } susp o server) :
    Conversing { (e.setConn c conn).track c server (e.waiting.eraseIdx i) with
      stores := e.stores ++ e.storesOf c susp o } := by
  obtain ⟨hspeaks, hws⟩ := forall₂_extract h.serving.waiting hc hsusp
  have hnone : e.activeConn = none := by
    have hactive := h.serving.active
    rw [ha] at hactive
    exact rel_none hactive
  have hperm : (c :: e.waiting.eraseIdx i).Perm e.waiting := by
    obtain ⟨hlt, rfl⟩ := List.getElem?_eq_some_iff.mp hc
    exact List.getElem_cons_eraseIdx_perm hlt
  have hnodup : (c :: e.waiting.eraseIdx i).Nodup := by
    have hnodup := h.serving.nodup
    rw [hnone] at hnodup
    exact hperm.nodup_iff.mpr hnodup
  have haccepted : ∀ c' ∈ c :: e.waiting.eraseIdx i, (e.conns c').accepted = true := by
    intro c' hc'
    exact h.serving.accepted c' (List.mem_append_right _ (hperm.mem_iff.mp hc'))
  have hacc := haccepted c List.mem_cons_self
  have hserving := h.serving.track (JobServer.step_labelled h.serving.labelled (.resume ha hsusp hs))
    (JobServer.resumeStep_speaks (s := { e.server with suspended := e.server.suspended.eraseIdx i }) ha hs hends
      hspeaks) hws hnodup
    (fun c' hc' => haccepted c' (List.mem_cons_of_mem c hc')) (hends.accepted.trans hacc)
  obtain ⟨activeConn, waiting, heq⟩ := track_eq (e.setConn c conn) c server (e.waiting.eraseIdx i)
  rw [heq] at hserving ⊢
  exact h.serve (h.asking.lt_of_accepted hacc) hends.serverSide (hends.paired hspeaks (h.paired c).2)
    { hserving with } rfl rfl rfl rfl (h.right_storesOf (List.mem_of_getElem? hsusp) hspeaks hends)

theorem Conversing.accept (h : e.Conversing) (hc : c < e.nextConn) (hfresh : (e.conns c).accepted = false) :
    Conversing { e.setConn c { e.conns c with accepted := true } with
      server := { e.server with suspended := e.server.suspended ++ [.hello] }
      waiting := e.waiting ++ [c] } := by
  have hnew : c ∉ e.activeConn.toList ++ e.waiting := by
    intro hmem
    rw [h.serving.accepted c hmem] at hfresh
    cases hfresh
  have hperm : (e.activeConn.toList ++ (e.waiting ++ [c])).Perm (c :: (e.activeConn.toList ++ e.waiting)) := by
    rw [← List.append_assoc]
    exact List.perm_append_singleton c _
  have hside : ServerSide (e.conns c) { e.conns c with accepted := true } :=
    ⟨rfl, List.prefix_rfl, rfl, List.prefix_rfl⟩
  refine h.serve hc hside (h.paired c).2 ?_ rfl rfl rfl (List.append_nil _).symm (by simp)
  refine ⟨JobServer.step_labelled h.serving.labelled .accept, ?_, ?_, ?_, ?_, ?_⟩
  · exact rel_setConn (fun hmem => hnew (List.mem_append_left _ hmem)) h.serving.active
  · refine List.rel_append (forall₂_setConn (fun hmem => hnew (List.mem_append_right _ hmem)) h.serving.waiting)
      (.cons ?_ .nil)
    rw [setConn_self]
    exact h.serving.fresh c hfresh
  · exact hperm.nodup_iff.mpr (List.nodup_cons.mpr ⟨hnew, h.serving.nodup⟩)
  · intro c' hc'
    exact accepted_setConn rfl h.serving.accepted c' (hperm.mem_iff.mp hc')
  · exact h.serving.fresh_setConn rfl

theorem Conversing.campaign (h : e.Conversing) (hlabelled : server.Labelled)
    (hactive : server.active = e.server.active) (hsuspended : server.suspended = e.server.suspended) :
    Conversing { e with server := server } := by
  refine ⟨⟨hlabelled, ?_, ?_, h.serving.nodup, h.serving.accepted, h.serving.fresh⟩, { h.asking with }, h.paired,
    h.stores⟩
  · show Option.Rel _ e.activeConn server.active
    rw [hactive]
    exact h.serving.active
  · show List.Forall₂ _ e.waiting server.suspended
    rw [hsuspended]
    exact h.serving.waiting

end Server

/-! ## The clients' steps -/

section Client

variable {k : ℕ} {cl : Client M}

@[simp] theorem setClient_self : (e.setClient k cl).clients k = cl := by
  exact Function.update_self k cl e.clients

@[simp] theorem setClient_of_ne {k' : ℕ} (h : k' ≠ k) : (e.setClient k cl).clients k' = e.clients k' := by
  exact Function.update_of_ne h cl e.clients

/-- **Client `k` has done something.** It is enough to look at this client, and that the connections of the
others are left alone. -/
theorem Asking.of_client (h : e.Asking) (hclients : ∀ k', k' ≠ k → e'.clients k' = e.clients k')
    (hconns : ∀ k' c, k' ≠ k → (e.clients k').socket = some c → e'.conns c = e.conns c)
    (hspeaks : ∀ c, (e'.clients k).socket = some c → (e'.clients k).Speaks (e'.conns c) (e'.clients k).pc)
    (hlt : ∀ c, (e'.clients k).socket = some c → c < e'.nextConn)
    (hown : ∀ k' c, k' ≠ k → (e'.clients k).socket = some c → (e.clients k').socket ≠ some c)
    (hnext : e.nextConn ≤ e'.nextConn) (hunused : ∀ c, e'.nextConn ≤ c → e'.conns c = {}) : e'.Asking where
  speaks k' c hsocket := by
    by_cases hk : k' = k
    · rw [hk] at hsocket ⊢
      exact hspeaks c hsocket
    · rw [hclients k' hk] at hsocket ⊢
      rw [hconns k' c hk hsocket]
      exact h.speaks k' c hsocket
  socket_inj k₁ k₂ c h₁ h₂ := by
    by_cases hk₁ : k₁ = k
    · by_cases hk₂ : k₂ = k
      · rw [hk₁, hk₂]
      · rw [hk₁] at h₁
        rw [hclients k₂ hk₂] at h₂
        exact absurd h₂ (hown k₂ c hk₂ h₁)
    · rw [hclients k₁ hk₁] at h₁
      by_cases hk₂ : k₂ = k
      · rw [hk₂] at h₂
        exact absurd h₁ (hown k₁ c hk₁ h₂)
      · rw [hclients k₂ hk₂] at h₂
        exact h.socket_inj k₁ k₂ c h₁ h₂
  socket_lt k' c hsocket := by
    by_cases hk : k' = k
    · rw [hk] at hsocket
      exact hlt c hsocket
    · rw [hclients k' hk] at hsocket
      exact (h.socket_lt k' c hsocket).trans_le hnext
  unused := hunused

/-- Only the buffers of a client change while its experiment runs. -/
theorem Conversing.setClient (h : e.Conversing) (hsocket : cl.socket = (e.clients k).socket)
    (hpc : cl.pc = .running) : (e.setClient k cl).Conversing := by
  refine ⟨{ h.serving with }, ?_, h.paired, h.stores⟩
  refine h.asking.of_client (k := k) (fun k' hk' => setClient_of_ne hk') (fun _ _ _ _ => rfl) ?_ ?_ ?_ le_rfl
    h.asking.unused
  · intro c hc
    rw [setClient_self, hpc]
    trivial
  · intro c hc
    rw [setClient_self, hsocket] at hc
    exact h.asking.socket_lt k c hc
  · intro k' c hk' hc hc'
    rw [setClient_self, hsocket] at hc
    exact hk' (h.asking.socket_inj k' k c hc' hc)

theorem Conversing.connect {pc : ClientPc} (h : e.Conversing)
    (hspeaks : ∀ cl : Client M, cl.Speaks {} pc) : (e.connect k pc).Conversing := by
  refine ⟨{ h.serving with }, ?_, h.paired, h.stores⟩
  have hsocket : ∀ c, ((e.connect k pc).clients k).socket = some c → c = e.nextConn := by
    intro c hc
    have hself : (e.connect k pc).clients k = _ := setClient_self
    rw [hself] at hc
    exact (Option.some.inj hc).symm
  refine h.asking.of_client (k := k) (fun k' hk' => setClient_of_ne hk') (fun _ _ _ _ => rfl) ?_ ?_ ?_
    (Nat.le_succ _) ?_
  · intro c hc
    rw [hsocket c hc]
    have hself : (e.connect k pc).clients k = _ := setClient_self
    rw [hself]
    show Client.Speaks _ (e.conns e.nextConn) pc
    rw [h.asking.unused _ le_rfl]
    exact hspeaks _
  · intro c hc
    rw [hsocket c hc]
    exact Nat.lt_succ_self _
  · intro k' c hk' hc hc'
    rw [hsocket c hc] at hc'
    exact absurd (h.asking.socket_lt k' _ hc') (lt_irrefl _)
  · intro c hc
    exact h.asking.unused c (Nat.le_of_succ_le hc)

theorem Conversing.io {c : ℕ} {conn : Connection M} {stored : Option ℕ} (h : e.Conversing)
    (hc : (e.clients k).socket = some c)
    (hdoes : (e.clients k).Does (e.conns c) (e.clients k).pc cl conn stored) :
    Conversing { (e.setClient k cl).setConn c conn with
      stores := e.stores ++ stored.toList.map fun id => ⟨c, false, (e.conns c).toClient.pos, id, none⟩ } := by
  have hspeaks := h.asking.speaks k c hc
  have hlt := h.asking.socket_lt k c hc
  have hside := hdoes.clientSide
  have hsides := setConn_rel (e := e) (R := ClientSide) clientSide_refl hside
  have hsocket : ∀ c', cl.socket = some c' → c' = c := by
    intro c' hc'
    obtain hnone | hsame := hdoes.socket
    · rw [hnone] at hc'
      cases hc'
    · rw [hsame, hc] at hc'
      exact (Option.some.inj hc').symm
  refine ⟨{ h.serving.setConn hside with }, ?_, ?_, ?_⟩
  · -- the sockets of the clients are different ones, so that the others see nothing of it
    refine h.asking.of_client (k := k) (fun k' hk' => setClient_of_ne hk') ?_ ?_ ?_ ?_ le_rfl
      (fun c' hc' => h.asking.unused_setConn hlt hc')
    · intro k' c' hk' hc'
      have hne : c' ≠ c := by
        rintro rfl
        exact hk' (h.asking.socket_inj k' k _ hc' hc)
      exact setConn_of_ne hne
    · intro c' hc'
      replace hc' : ((e.setClient k cl).clients k).socket = some c' := hc'
      rw [setClient_self] at hc'
      show Client.Speaks ((e.setClient k cl).clients k) (((e.setClient k cl).setConn c conn).conns c')
        ((e.setClient k cl).clients k).pc
      rw [hsocket c' hc', setClient_self, setConn_self]
      exact hdoes.speaks hspeaks
    · intro c' hc'
      replace hc' : ((e.setClient k cl).clients k).socket = some c' := hc'
      rw [setClient_self] at hc'
      rw [hsocket c' hc']
      exact hlt
    · intro k' c' hk' hc' hother
      replace hc' : ((e.setClient k cl).clients k).socket = some c' := hc'
      rw [setClient_self] at hc'
      rw [hsocket c' hc'] at hother
      exact hk' (h.asking.socket_inj k' k c hother hc)
  · intro c'
    show Paired ((e.setConn c conn).conns c').toServer.frames ∧
      Paired ((e.setConn c conn).conns c').toClient.frames
    refine ⟨?_, ?_⟩
    · by_cases heq : c' = c
      · rw [heq, setConn_self]
        exact hdoes.paired hspeaks (h.paired c).1
      · rw [setConn_of_ne heq]
        exact (h.paired c').1
    · rw [(hsides c').toClient]
      exact (h.paired c').2
  · -- what was stored before stays right, and a job that arrives is stored behind its own number
    intro st hst
    have hright : st.Right (e.conns st.conn) := by
      obtain hst | hst := List.mem_append.mp hst
      · exact h.stores st hst
      · obtain ⟨id, hid, rfl⟩ := List.mem_map.mp hst
        rw [Option.mem_toList] at hid
        subst hid
        exact hdoes.right hspeaks (h.paired c).2
    have hside := hsides st.conn
    exact hright.mono hside.toServer (hside.toClient ▸ List.prefix_rfl) (hside.lookups ▸ List.prefix_rfl)

/-- **The steps of client `k`.** -/
inductive ClientStep (e : Exchange M) (k : ℕ) : Exchange M → Prop
  /-- The experiment runs, and only the buffers change. -/
  | setClient {cl : Client M} (hpc : cl.pc = .running) (hsocket : cl.socket = (e.clients k).socket)
      (hjobs : ∀ job ∈ cl.parameters, job ∈ (e.clients k).parameters) : ClientStep e k (e.setClient k cl)
  | connect {pc : ClientPc} (hpc : (∃ jobSize, pc = .needWork jobSize) ∨ pc = .resultCtrl) :
      ClientStep e k (e.connect k pc)
  | io {c : ℕ} {cl : Client M} {conn : Connection M} {stored : Option ℕ} (hc : (e.clients k).socket = some c)
      (hdoes : (e.clients k).Does (e.conns c) (e.clients k).pc cl conn stored) :
      ClientStep e k { (e.setClient k cl).setConn c conn with
        stores := e.stores ++ stored.toList.map fun id => ⟨c, false, (e.conns c).toClient.pos, id, none⟩ }

/-- **`clientStep` is covered by `ClientStep`.** -/
theorem clientStep_cases {a : ClientAction M} (hs : e.clientStep k a = some e') : ClientStep e k e' := by
  unfold clientStep at hs
  cases a with
  | takeParam =>
    dsimp only at hs
    split at hs
    · rename_i front parameters hpc hparams
      cases hs
      refine .setClient hpc rfl fun job hjob => ?_
      rw [hparams]
      exact List.mem_cons_of_mem front hjob
    · cases hs
  | getWork jobSize connected =>
    dsimp only at hs
    split at hs
    · rename_i hpc _
      split at hs
      · split at hs
        · cases hs
        · cases hs
          exact .connect (Or.inl ⟨jobSize, rfl⟩)
      · cases hs
        exact .setClient hpc rfl fun job hjob => hjob
    · cases hs
  | sendResult msg id =>
    dsimp only at hs
    split at hs
    · rename_i hpc
      cases hs
      exact .setClient hpc rfl fun job hjob => hjob
    · cases hs
  | sendResults connected =>
    dsimp only at hs
    split at hs
    · rename_i hpc _
      split at hs
      · split at hs
        · cases hs
        · cases hs
          exact .connect (Or.inr rfl)
      · cases hs
        exact .setClient hpc rfl fun job hjob => hjob
    · cases hs
  | io io =>
    dsimp only at hs
    split at hs
    · cases hs
    · rename_i c hc
      obtain ⟨⟨cl, conn, stored⟩, hio, rfl⟩ := Option.map_eq_some_iff.mp hs
      exact .io hc (Client.io_cases hio)

theorem Conversing.clientStep (h : e.Conversing) (hs : ClientStep e k e') : e'.Conversing := by
  cases hs with
  | setClient hpc hsocket => exact h.setClient hsocket hpc
  | connect hpc =>
    refine h.connect fun cl => ?_
    obtain ⟨jobSize, rfl⟩ | rfl := hpc
    · exact ⟨rfl, rfl⟩
    · exact ⟨rfl, rfl⟩
  | io hc hdoes => exact h.io hc hdoes

end Client

/-! ## The system -/

/-- **The steps of the system.** -/
inductive Step (e : Exchange M) : Exchange M → Prop
  | campaign {l : JobServer.Action M} {server : JobServer M} (hs : JobServer.Step e.server l server)
      (haccept : l ≠ .accept) (hcomm : l ≠ .comm) (hresume : ∀ i o, l ≠ .resume i o) :
      Step e { e with server := server }
  | accept {c : ℕ} (hc : c < e.nextConn) (hfresh : (e.conns c).accepted = false) :
      Step e { e.setConn c { e.conns c with accepted := true } with
        server := { e.server with suspended := e.server.suspended ++ [.hello] }
        waiting := e.waiting ++ [c] }
  | comm {a : Active} {c : ℕ} {server : JobServer M} (ha : e.server.active = some a) (hc : e.activeConn = some c)
      (hs : JobServer.CommStep e.server a server) :
      Step e ((e.setConn c ((e.conns c).prepare e.server a)).track c server e.waiting)
  | resume {i c : ℕ} {susp : Suspended} {o : JobServer.Outcome M} {conn : Connection M} {server : JobServer M}
      (ha : e.server.active = none) (hsusp : e.server.suspended[i]? = some susp) (hc : e.waiting[i]? = some c)
      (hends : susp.Ends (e.conns c) o conn)
      (hs : JobServer.ResumeStep { e.server with suspended := e.server.suspended.eraseIdx i } susp o server) :
      Step e { (e.setConn c conn).track c server (e.waiting.eraseIdx i) with
        stores := e.stores ++ e.storesOf c susp o }
  | client {k : ℕ} {t : Exchange M} (hs : ClientStep e k t) : Step e t

/-- **`step` is covered by `Step`.** -/
theorem step_cases {a : Action M} (hs : e.step a = some e') : Step e e' := by
  unfold step at hs
  cases a with
  | campaign l =>
    dsimp only at hs
    split at hs
    · cases hs
    · cases hs
    · cases hs
    · rename_i haccept hresume hcomm
      obtain ⟨server, hstep, rfl⟩ := Option.map_eq_some_iff.mp hs
      exact .campaign (JobServer.step_cases hstep) haccept hcomm hresume
  | accept c =>
    dsimp only at hs
    split at hs
    · rename_i hc
      cases hs
      exact .accept hc.1 hc.2
    · cases hs
  | comm =>
    dsimp only at hs
    split at hs
    · rename_i a c ha hc
      obtain ⟨server, hstep, rfl⟩ := Option.map_eq_some_iff.mp hs
      exact .comm ha hc (JobServer.commStep_cases hstep)
    · cases hs
  | resume i io =>
    dsimp only at hs
    split at hs
    · rename_i susp c ha hsusp hc
      obtain ⟨⟨o, conn⟩, hio, hs⟩ := Option.bind_eq_some_iff.mp hs
      obtain ⟨server, hstep, rfl⟩ := Option.map_eq_some_iff.mp hs
      exact .resume ha hsusp hc (Suspended.io_cases hio) (JobServer.resumeStep_cases hstep)
    · cases hs
  | client k a => exact .client (clientStep_cases hs)

/-- A step of the campaign leaves the coroutines and the objects that exist alone. -/
theorem campaign_frame {s s' : JobServer M} {l : JobServer.Action M} (hs : JobServer.Step s l s')
    (haccept : l ≠ .accept) (hcomm : l ≠ .comm) (hresume : ∀ i o, l ≠ .resume i o) :
    s'.active = s.active ∧ s'.suspended = s.suspended ∧
      ∀ exp < s.data.length, s'.getMessage exp = s.getMessage exp := by
  cases hs with
  | accept => exact absurd rfl haccept
  | comm => exact absurd rfl hcomm
  | resume => exact absurd rfl (hresume _ _)
  | campaign hc hs =>
    have hframe := JobServer.campaignStep_frame hs
    exact ⟨hframe.active, hframe.suspended, fun exp hexp => JobServer.campaignStep_getMessage hs hexp⟩
  | addParam | setNoMoreExperiments | getNull | getDone => exact ⟨rfl, rfl, fun _ _ => rfl⟩

/-- **Every step keeps to the exchanges.** -/
theorem step_conversing (h : e.Conversing) (hs : Step e e') : e'.Conversing := by
  cases hs with
  | campaign hs haccept hcomm hresume =>
    obtain ⟨hactive, hsuspended, -⟩ := campaign_frame hs haccept hcomm hresume
    exact h.campaign (JobServer.step_labelled h.serving.labelled hs) hactive hsuspended
  | accept hc hfresh => exact h.accept hc hfresh
  | comm ha hc hs => exact h.comm ha hc hs
  | resume ha hsusp hc hends hs => exact h.resume ha hsusp hc hends hs
  | client hs => exact h.clientStep hs

/-! ## What is recorded -/

/-- **Every body that is stored in a step is recorded**: if the message of an object of the server changes, or a
client gets a new object, the step records one more body, with the workload ID of this object. -/
def Recorded (e e' : Exchange M) : Prop :=
  (∀ exp < e.server.data.length, e'.server.getMessage exp ≠ e.server.getMessage exp →
    ∃ c, e'.stores = e.stores ++
      [⟨c, true, (e.conns c).toServer.pos, e.server.getWorkloadID exp, some exp⟩]) ∧
  ∀ k, ∀ job ∈ (e'.clients k).parameters, job ∉ (e.clients k).parameters →
    ∃ c, e'.stores = e.stores ++ [⟨c, false, (e.conns c).toClient.pos, job.workloadID, none⟩]

/-- A step of the server does not give a client anything. -/
theorem recorded_of_server (hclients : e'.clients = e.clients)
    (hmsg : ∀ exp < e.server.data.length, e'.server.getMessage exp ≠ e.server.getMessage exp →
      ∃ c, e'.stores = e.stores ++
        [⟨c, true, (e.conns c).toServer.pos, e.server.getWorkloadID exp, some exp⟩]) : Recorded e e' := by
  refine ⟨hmsg, fun k job hjob hnew => ?_⟩
  rw [hclients] at hjob
  exact absurd hjob hnew

/-- A step of a client does not change an object of the server. -/
theorem recorded_of_client {k : ℕ} (hserver : e'.server = e.server)
    (hclients : ∀ k', k' ≠ k → e'.clients k' = e.clients k')
    (hjobs : ∀ job ∈ (e'.clients k).parameters, job ∉ (e.clients k).parameters →
      ∃ c, e'.stores = e.stores ++ [⟨c, false, (e.conns c).toClient.pos, job.workloadID, none⟩]) :
    Recorded e e' := by
  refine ⟨fun exp _ hne => ?_, fun k' job hjob hnew => ?_⟩
  · rw [hserver] at hne
    exact absurd rfl hne
  · by_cases hk : k' = k
    · subst hk
      exact hjobs job hjob hnew
    · rw [hclients k' hk] at hjob
      exact absurd hjob hnew

/-- A client whose buffer only shrinks stores nothing. -/
theorem recorded_setClient {k : ℕ} {cl : Client M}
    (hjobs : ∀ job ∈ cl.parameters, job ∈ (e.clients k).parameters) :
    Recorded e (e.setClient k cl) := by
  refine recorded_of_client (k := k) rfl (fun k' hk' => setClient_of_ne hk') fun job hjob hnew => ?_
  rw [setClient_self] at hjob
  exact absurd (hjobs job hjob) hnew

theorem clientStep_recorded {k : ℕ} (hs : ClientStep e k e') : Recorded e e' := by
  cases hs with
  | setClient hpc hsocket hjobs => exact recorded_setClient hjobs
  | @connect pc hpc =>
    refine recorded_of_client (k := k) rfl (fun k' hk' => setClient_of_ne hk') fun job hjob hnew => ?_
    have hself : (e.connect k pc).clients k = _ := setClient_self
    rw [hself] at hjob
    exact absurd hjob hnew
  | @io c cl conn stored hc hdoes =>
    refine recorded_of_client (k := k) rfl (fun k' hk' => setClient_of_ne hk') fun job hjob hnew => ⟨c, ?_⟩
    have hself : ((e.setClient k cl).setConn c conn).clients k = cl := setClient_self
    replace hjob : job ∈ (((e.setClient k cl).setConn c conn).clients k).parameters := hjob
    rw [hself] at hjob
    have hstored := (hdoes.parameters job hjob).resolve_left hnew
    show e.stores ++ _ = _
    rw [hstored]
    rfl

/-- **Nothing is stored without a record.** -/
theorem step_recorded (hs : Step e e') : Recorded e e' := by
  cases hs with
  | campaign hs haccept hcomm hresume =>
    obtain ⟨-, -, hmsg⟩ := campaign_frame hs haccept hcomm hresume
    exact recorded_of_server rfl fun exp hexp hne => absurd (hmsg exp hexp) hne
  | accept => exact recorded_of_server rfl fun exp hexp hne => absurd rfl hne
  | @comm a c server ha hc hs =>
    obtain ⟨activeConn, waiting, heq⟩ :=
      track_eq (e.setConn c ((e.conns c).prepare e.server a)) c server e.waiting
    rw [heq]
    refine recorded_of_server rfl fun exp hexp hne => absurd ?_ hne
    exact congrFun (JobServer.commStep_getMessage hs) exp
  | @resume i c susp o conn server ha hsusp hc hends hs =>
    obtain ⟨activeConn, waiting, heq⟩ := track_eq (e.setConn c conn) c server (e.waiting.eraseIdx i)
    rw [heq]
    refine recorded_of_server rfl fun exp hexp hne => ⟨c, ?_⟩
    obtain ⟨id, msgs, recvd, rfl, ⟨msg, rfl⟩ | ⟨msg, rfl⟩⟩ := JobServer.resumeStep_getMessage hs hne
    · rfl
    · rfl
  | client hs => exact clientStep_recorded hs

/-! ## The result -/

theorem conversing_of_reachable {runid capacity : ℕ} (h : Reachable step (init runid capacity) e) :
    e.Conversing :=
  h.invariant (conversing_init runid capacity) fun _ _ _ h _ hs => step_conversing h (step_cases hs)

/-- The server has not found the job for the `j`-th announced ID: its result is stored nowhere. -/
theorem Conversing.not_stored (h : e.Conversing) {c j : ℕ} (hnone : (e.conns c).lookups[j]? = some none) :
    ∀ st ∈ e.stores, st.conn = c → st.toServer = true → st.frame ≠ j + 1 := by
  rintro st hst rfl hserver hframe
  obtain ⟨ctrlmsg, j', msg, -, hframe', -, -, hlookup⟩ := h.stores st hst
  obtain ⟨exp, -, hsome⟩ := hlookup hserver
  obtain rfl : j = j' := by omega
  rw [hnone] at hsome
  cases hsome

/-- **Bodies are paired with their own workload IDs.** In every run of the job server and any number of clients,
whatever fails, the bodies on every connection are in the order of the IDs that the control message announces.
The `j`-th body is only ever stored into an object that carries the `j`-th ID, and, if it is a result, that the
server had found under this ID. A result for an ID under which it has found nothing is stored nowhere. No step
stores a body without recording it. -/
theorem bodies_paired {runid capacity : ℕ} (h : Reachable step (init runid capacity) e) :
    (∀ c, Paired (e.conns c).toServer.frames ∧ Paired (e.conns c).toClient.frames) ∧
    (∀ st ∈ e.stores, st.Right (e.conns st.conn)) ∧
    (∀ c j, (e.conns c).lookups[j]? = some none →
      ∀ st ∈ e.stores, st.conn = c → st.toServer = true → st.frame ≠ j + 1) ∧
    ∀ a e', e.step a = some e' → Recorded e e' := by
  have hconv := conversing_of_reachable h
  refine ⟨hconv.paired, hconv.stores, fun c j hnone => hconv.not_stored hnone, fun a e' hs => ?_⟩
  exact step_recorded (step_cases hs)

/-- A client fetches the only job. It sends a result with an ID that the server does not know, and then the one
for the job. -/
def unknownResult : List (Action ℕ) :=
  [.campaign (.addParam 7), .campaign .campaign,
    .client 0 (.getWork 1 true), .client 0 (.io .ok), .accept 0, .resume 0 .ok, .comm, .comm, .resume 0 .ok,
    .comm, .resume 0 .ok, .comm, .client 0 (.io .ok), .client 0 (.io .ok), .client 0 (.io .ok),
    .client 0 .takeParam, .client 0 (.sendResult 9 5), .client 0 (.sendResult 8 1),
    .client 0 (.sendResults true), .client 0 (.io .ok), .client 0 (.io .ok), .client 0 (.io .ok),
    .client 0 (.io .ok), .accept 1, .resume 0 .ok, .comm, .comm, .comm, .comm, .comm, .resume 0 .ok, .comm,
    .resume 0 .ok]

theorem bodies_paired_unknownResult :
    ∃ e : Exchange ℕ, run step (init 3 0) unknownResult = some e ∧
      e.stores = [⟨0, false, 1, 1, none⟩, ⟨1, true, 2, 1, some 0⟩] ∧ (e.conns 1).lookups = [none, some 0] ∧
      (∀ st ∈ e.stores, st.Right (e.conns st.conn)) ∧
      ∀ st ∈ e.stores, st.conn = 1 → st.toServer = true → st.frame ≠ 1 := by
  have hrun : (run step (init 3 0) unknownResult).map (fun e => (e.stores, (e.conns 1).lookups)) =
      some ([⟨0, false, 1, 1, none⟩, ⟨1, true, 2, 1, some 0⟩], [none, some 0]) := by
    decide +kernel
  obtain ⟨e, he, heq⟩ := Option.map_eq_some_iff.mp hrun
  obtain ⟨hstores, hlookups⟩ := Prod.mk.inj heq
  obtain ⟨-, hright, hredundant, -⟩ := bodies_paired (reachable_of_run unknownResult he)
  exact ⟨e, he, hstores, hlookups, hright, hredundant 1 0 (by rw [hlookups]; rfl)⟩

end Exchange

end FailStar
