import FailStar.JobServer.Resend

/-! # The workload ID a job is found under

The server looks a job up in `m_runningJobs` by the workload ID that a client announces, and keeps both until
the result has been received. This file shows that the job always carries this ID.

* **`Found`** — a job is kept under a workload ID, in `m_runningJobs` or by a coroutine.
* **`Labelled`**, **`step_labelled`** — it carries this ID, in every reachable state.
* **`resumeStep_getMessage`** — the message of a job only changes when its result is received. -/

namespace FailStar

/-- The jobs that were found, with the workload IDs they were found under. -/
def Msgs.found (msgs : Msgs) : List (Job × ℕ) := msgs.filterMap fun m => m.1.map fun exp => (exp, m.2)

@[inherit_doc Msgs.found]
def Recvd.found (recvd : Recvd) : List (Job × ℕ) := recvd.map fun r => (r.1, r.2.1)

/-- The jobs that a coroutine has taken out of `m_runningJobs`. -/
def Active.found : Active → List (Job × ℕ)
  | .remove _ msgs => Msgs.found msgs
  | .receive msgs recvd => Msgs.found msgs ++ Recvd.found recvd
  | .lockPut recvd | .put recvd => Recvd.found recvd
  | _ => []

@[inherit_doc Active.found]
def Suspended.found : Suspended → List (Job × ℕ)
  | .result exp id msgs recvd => (exp, id) :: (Msgs.found msgs ++ Recvd.found recvd)
  | .drop msgs recvd => Msgs.found msgs ++ Recvd.found recvd
  | _ => []

theorem Msgs.mem_of_found {msgs : Msgs} {exp : Job} {id : ℕ} (h : (exp, id) ∈ Msgs.found msgs) :
    exp ∈ msgs.filterMap Prod.fst := by
  obtain ⟨m, hm, hexp⟩ := List.mem_filterMap.mp h
  obtain ⟨exp', hexp', heq⟩ := Option.map_eq_some_iff.mp hexp
  cases heq
  exact List.mem_filterMap.mpr ⟨m, hm, hexp'⟩

theorem Recvd.mem_of_found {recvd : Recvd} {exp : Job} {id : ℕ} (h : (exp, id) ∈ Recvd.found recvd) :
    exp ∈ recvd.map Prod.fst := by
  obtain ⟨r, hr, heq⟩ := List.mem_map.mp h
  cases heq
  exact List.mem_map_of_mem hr

theorem Active.held_of_found {a : Active} {exp : Job} {id : ℕ} (h : (exp, id) ∈ a.found) : exp ∈ a.held := by
  cases a with
  | remove ids msgs => exact Msgs.mem_of_found h
  | receive msgs recvd =>
    exact List.mem_append.mpr ((List.mem_append.mp h).imp Msgs.mem_of_found Recvd.mem_of_found)
  | lockPut recvd | put recvd => exact Recvd.mem_of_found h
  | _ => cases h

theorem Suspended.held_of_found {c : Suspended} {exp : Job} {id : ℕ} (h : (exp, id) ∈ c.found) :
    exp ∈ c.held := by
  cases c with
  | result exp' id' msgs recvd =>
    obtain heq | h := List.mem_cons.mp h
    · cases heq
      exact List.mem_cons_self
    · exact List.mem_cons_of_mem _
        (List.mem_append.mpr ((List.mem_append.mp h).imp Msgs.mem_of_found Recvd.mem_of_found))
  | drop msgs recvd =>
    exact List.mem_append.mpr ((List.mem_append.mp h).imp Msgs.mem_of_found Recvd.mem_of_found)
  | _ => cases h

namespace JobServer

variable {M : Type*} {s s' : JobServer M} {a : Active} {c : Suspended} {o : Outcome M}
  {l : Action M} {exp : Job} {id : ℕ}

/-- The job is kept under this workload ID. -/
def Found (s : JobServer M) (exp : Job) (id : ℕ) : Prop :=
  s.runningJobs.map[id]? = some exp ∨ (∃ a, s.active = some a ∧ (exp, id) ∈ a.found) ∨
    ∃ c ∈ s.suspended, (exp, id) ∈ c.found

/-- **Jobs carry the workload IDs they are kept under.** -/
structure Labelled (s : JobServer M) : Prop where
  addressed : s.Addressed
  found : ∀ exp id, s.Found exp id → s.getWorkloadID exp = id

theorem labelled_init (runid capacity : ℕ) : (init runid capacity : JobServer M).Labelled where
  addressed := addressed_init runid capacity
  found exp id h := by
    obtain h | ⟨a, ha, -⟩ | ⟨c, hc, -⟩ := h
    · simp [init] at h
    · cases ha
    · cases hc

theorem Found.not_mem_undone (h : s.Found exp id) (howned : s.Owned) : exp ∉ s.undoneJobs.queue := by
  have hle := List.nodup_iff_count_le_one.mp howned.nodup exp
  simp only [jobs, List.count_append] at hle
  intro hundone
  have hpos := List.count_pos_iff.mpr hundone
  have hother : 0 < s.runningJobs.values.count exp ∨ 0 < s.held.count exp := by
    obtain h | ⟨a, ha, h⟩ | ⟨c, hc, h⟩ := h
    · exact Or.inl (List.count_pos_iff.mpr
        ((SynchronizedMap.values_remove_of_present h).mem_iff.mpr List.mem_cons_self))
    · refine Or.inr (List.count_pos_iff.mpr (List.mem_append_left _ ?_))
      rw [ha]
      exact Active.held_of_found h
    · exact Or.inr (List.count_pos_iff.mpr (List.mem_append_right _
        (List.mem_flatMap_of_mem hc (Suspended.held_of_found h))))
  omega

/-- An entry after an insertion was there before, or is the inserted one. -/
theorem getElem?_of_insert {m : SynchronizedMap ℕ Job} {key : ℕ} {value : Job}
    (h : (m.insert key value).2.map[id]? = some exp) :
    m.map[id]? = some exp ∨ id = key ∧ exp = value := by
  cases hkey : m.map[key]? with
  | some v =>
    rw [SynchronizedMap.insert_of_taken hkey] at h
    exact Or.inl h
  | none =>
    rw [SynchronizedMap.insert_of_free hkey] at h
    dsimp only at h
    rw [Std.TreeMap.getElem?_insert] at h
    split at h
    · rename_i heq
      exact Or.inr ⟨(Std.LawfulEqOrd.eq_of_compare heq).symm, (Option.some.inj h).symm⟩
    · exact Or.inl h

/-- **Where a coroutine goes**: it is still active at a point with `P`, it waits for an operation with `Q`, or it
returns. -/
def Goes (s s' : JobServer M) (P : Active → Prop) (Q : Suspended → Prop) : Prop :=
  (∃ a', s'.active = some a' ∧ s'.suspended = s.suspended ∧ P a') ∨
  (∃ c', s'.active = none ∧ s'.suspended = s.suspended ++ [c'] ∧ Q c') ∨
  (s'.active = none ∧ s'.suspended = s.suspended)

section Goes

variable {P : Active → Prop} {Q : Suspended → Prop}

theorem goes_next {a' : Active} (h : P a') : Goes s (s.next a') P Q := Or.inl ⟨a', rfl, rfl, h⟩

theorem goes_suspend {c' : Suspended} (h : Q c') : Goes s (s.suspend c') P Q :=
  Or.inr (Or.inl ⟨c', rfl, rfl, h⟩)

theorem goes_finish : Goes s s.finish P Q := Or.inr (Or.inr ⟨rfl, rfl⟩)

theorem goes_sendLoop {ctrlmsg : FailControlMessage} {i : ℕ} {exp : List Job} (h : P (.sendJob ctrlmsg i exp)) :
    Goes s (s.sendLoop ctrlmsg i exp) P Q := by
  unfold sendLoop
  split
  · exact goes_next h
  · exact goes_finish

theorem Found.of_goes {p : Job × ℕ → Prop}
    (hgoes : Goes s s' (fun a' => ∀ x ∈ a'.found, p x) fun c' => ∀ x ∈ c'.found, p x)
    (h : s'.Found exp id) :
    s'.runningJobs.map[id]? = some exp ∨ p (exp, id) ∨ ∃ c ∈ s.suspended, (exp, id) ∈ c.found := by
  obtain h | ⟨a, ha, h⟩ | ⟨c, hc, h⟩ := h
  · exact Or.inl h
  · obtain ⟨a', ha', -, hp⟩ | ⟨c', hnone, -, -⟩ | ⟨hnone, -⟩ := hgoes
    · obtain rfl : a' = a := Option.some.inj (ha'.symm.trans ha)
      exact Or.inr (Or.inl (hp _ h))
    · exact absurd (hnone.symm.trans ha) (by simp)
    · exact absurd (hnone.symm.trans ha) (by simp)
  · obtain ⟨a', -, hsusp, -⟩ | ⟨c', -, hsusp, hp⟩ | ⟨-, hsusp⟩ := hgoes
    · exact Or.inr (Or.inr ⟨c, hsusp ▸ hc, h⟩)
    · rw [hsusp] at hc
      obtain hc | hc := List.mem_append.mp hc
      · exact Or.inr (Or.inr ⟨c, hc, h⟩)
      · rw [List.mem_singleton.mp hc] at h
        exact Or.inr (Or.inl (hp _ h))
    · exact Or.inr (Or.inr ⟨c, hsusp ▸ hc, h⟩)

end Goes

theorem Msgs.found_append (msgs : Msgs) (m : Option Job × ℕ) :
    Msgs.found (msgs ++ [m]) = Msgs.found msgs ++ Msgs.found [m] := List.filterMap_append

theorem commStep_goes (hs : CommStep s a s') :
    Goes s s' (fun a' => ∀ x ∈ a'.found, x ∈ a.found ∨ s.runningJobs.map[x.2]? = some x.1)
      fun c' => ∀ x ∈ c'.found, x ∈ a.found ∨ s.runningJobs.map[x.2]? = some x.1 := by
  have hnil : ∀ x ∈ ([] : List (Job × ℕ)), x ∈ a.found ∨ s.runningJobs.map[x.2]? = some x.1 :=
    List.forall_mem_nil _
  cases hs with
  | dequeue | fallback | requeue | stored | testUndone => exact goes_next hnil
  | announce | sendJob | pick | pickNone | resend => exact goes_suspend hnil
  | insertRunning => exact goes_sendLoop hnil
  | requeued | undoneLeft | complete | incomplete => exact goes_finish
  | lock hl =>
    cases hl with
    | pick | remove => exact goes_next hnil
    | put => exact goes_next fun x hx => Or.inl hx
  | removed => exact goes_next fun x hx => Or.inl (by simpa [Active.found, Recvd.found] using hx)
  | remove hid =>
    refine goes_next fun x hx => ?_
    rw [Active.found, Msgs.found_append, List.mem_append] at hx
    obtain hx | hx := hx
    · exact Or.inl hx
    · obtain rfl := List.mem_singleton.mp hx
      exact Or.inr hid
  | removeNone =>
    refine goes_next fun x hx => Or.inl ?_
    rw [Active.found, Msgs.found_append, List.mem_append] at hx
    exact hx.resolve_right List.not_mem_nil
  | received => exact goes_next fun x hx => Or.inl (List.mem_append_right _ hx)
  | receive | drop => exact goes_suspend fun x hx => Or.inl hx
  | putDone | putRunning => exact goes_next fun x hx => Or.inl (List.mem_cons_of_mem _ hx)

/-- The active coroutine puts jobs into `m_runningJobs` under the IDs they carry, or were found under. -/
theorem commStep_running_found (hs : CommStep s a s') (h : s'.runningJobs.map[id]? = some exp) :
    s.runningJobs.map[id]? = some exp ∨ (exp, id) ∈ a.found ∨ s'.getWorkloadID exp = id := by
  cases hs with
  | insertRunning =>
    rw [sendLoop_eq] at h ⊢
    obtain h | ⟨rfl, rfl⟩ := getElem?_of_insert h
    · exact Or.inl h
    · exact Or.inr (Or.inr rfl)
  | putRunning =>
    obtain h | ⟨rfl, rfl⟩ := getElem?_of_insert h
    · exact Or.inl h
    · exact Or.inr (Or.inl List.mem_cons_self)
  | remove =>
    dsimp only [next] at h
    rw [Std.TreeMap.getElem?_erase] at h
    split at h
    · cases h
    · exact Or.inl h
  | pick | pickNone =>
    dsimp only [suspend, unlockComm] at h
    rw [SynchronizedMap.pickone_map] at h
    exact Or.inl h
  | _ => exact Or.inl h

/-- **The active coroutine keeps a job under the workload ID it was found under**, or puts it into
`m_runningJobs` under the ID it carries. -/
theorem commStep_found (ha : s.active = some a) (hs : CommStep s a s') (h : s'.Found exp id) :
    s.Found exp id ∨ s'.getWorkloadID exp = id := by
  have hactive : (exp, id) ∈ a.found → s.Found exp id := fun h => Or.inr (Or.inl ⟨a, ha, h⟩)
  obtain h | (h | h) | h := h.of_goes (commStep_goes hs)
  · obtain h | h | h := commStep_running_found hs h
    · exact Or.inl (Or.inl h)
    · exact Or.inl (hactive h)
    · exact Or.inr h
  · exact Or.inl (hactive h)
  · exact Or.inl (Or.inl h)
  · exact Or.inl (Or.inr (Or.inr h))

theorem resumeStep_goes (ha : s.active = none) (hs : ResumeStep s c o s') :
    Goes s s' (fun a' => ∀ x ∈ a'.found, x ∈ c.found) fun c' => ∀ x ∈ c'.found, x ∈ c.found := by
  have hnil : ∀ x ∈ ([] : List (Job × ℕ)), x ∈ c.found := List.forall_mem_nil _
  have hreceive : ∀ (exp : Job) (id : ℕ) (success : Bool) (msgs : Msgs) (recvd : Recvd),
      ∀ x ∈ (Active.receive msgs (recvd ++ [(exp, id, success)])).found,
        x ∈ (Suspended.result exp id msgs recvd).found := by
    intro exp id success msgs recvd x hx
    rw [Active.found, Recvd.found, List.map_append, ← List.append_assoc] at hx
    rw [Suspended.found, List.mem_cons]
    obtain hx | hx := List.mem_append.mp hx
    · exact Or.inr hx
    · exact Or.inl (List.mem_singleton.mp hx)
  cases hs with
  | helloFailed | died | announceFailed | resendEnds | resent => exact Or.inr (Or.inr ⟨ha, rfl⟩)
  | helloDie => exact goes_suspend hnil
  | needWork | resultFollows | jobSent | jobFailed | resendAnnounced => exact goes_next hnil
  | oldResult => exact goes_finish
  | announced => exact goes_sendLoop hnil
  | result | unparsable | resultFailed => exact goes_next (hreceive _ _ _ _ _)
  | dropped => exact goes_next fun x hx => hx

theorem resumeStep_found (ha : s.active = none) (hs : ResumeStep s c o s') (h : s'.Found exp id) :
    s.Found exp id ∨ (exp, id) ∈ c.found := by
  obtain h | h | h := h.of_goes (resumeStep_goes ha hs)
  · rw [(resumeStep_frame hs).runningJobs] at h
    exact Or.inl (Or.inl h)
  · exact Or.inr h
  · exact Or.inl (Or.inr (Or.inr h))

theorem resume_found {i : ℕ} (ha : s.active = none) (hc : s.suspended[i]? = some c)
    (hs : ResumeStep { s with suspended := s.suspended.eraseIdx i } c o s') (h : s'.Found exp id) :
    s.Found exp id := by
  obtain (h | ⟨a, ha', -⟩ | ⟨c', hc', h⟩) | h :=
    resumeStep_found (s := { s with suspended := s.suspended.eraseIdx i }) ha hs h
  · exact Or.inl h
  · exact absurd (ha.symm.trans ha') (by simp)
  · exact Or.inr (Or.inr ⟨c', List.mem_of_mem_eraseIdx hc', h⟩)
  · exact Or.inr (Or.inr ⟨c, List.mem_of_getElem? hc, h⟩)

/-- **A step leaves the jobs labelled.** -/
theorem step_labelled (h : s.Labelled) (hs : Step s l s') : s'.Labelled := by
  refine ⟨step_addressed h.addressed hs, fun exp id hfound => ?_⟩
  cases hs with
  | comm ha hs =>
    obtain hfound | hid := commStep_found ha hs hfound
    · rw [commStep_getWorkloadID hs (hfound.not_mem_undone h.addressed.owned)]
      exact h.found exp id hfound
    · exact hid
  | resume ha hc hs =>
    rw [resume_getWorkloadID hs]
    exact h.found exp id (resume_found ha hc hs hfound)
  | campaign hc hs =>
    rw [campaignStep_getWorkloadID hs]
    refine h.found exp id ?_
    rwa [Found, (campaignStep_frame hs).runningJobs, (campaignStep_frame hs).active,
      (campaignStep_frame hs).suspended] at hfound
  | accept =>
    refine h.found exp id ?_
    obtain hfound | hfound | ⟨c, hc, hfound⟩ := hfound
    · exact Or.inl hfound
    · exact Or.inr (Or.inl hfound)
    · obtain hc | hc := List.mem_append.mp hc
      · exact Or.inr (Or.inr ⟨c, hc, hfound⟩)
      · rw [List.mem_singleton.mp hc] at hfound
        cases hfound
  | addParam | setNoMoreExperiments | getNull | getDone => exact h.found exp id hfound

/-! ## Messages -/

/-- `exp->getMessage()`. -/
def getMessage (s : JobServer M) (exp : Job) : Option M := s.data[exp]?.map (·.msg)

theorem commStep_getMessage (hs : CommStep s a s') : s'.getMessage = s.getMessage := by
  cases hs with
  | dequeue =>
    funext j
    simp only [getMessage, next, setWorkloadID, List.getElem?_modify, Option.map_eq_map, Option.map_map]
    cases s.data[j]? with
    | none => rfl
    | some d => simp [apply_ite ExperimentData.msg]
  | insertRunning => rw [sendLoop_eq]; rfl
  | _ => rfl

theorem getMessage_setMessage_of_ne {msg : M} {j : Job} (h : exp ≠ j) :
    (s.setMessage exp msg).getMessage j = s.getMessage j := by
  simp only [getMessage, setMessage, List.getElem?_modify, if_neg h, Option.map_eq_map,
    Option.map_id_fun', id_eq]

/-- A resumed coroutine only overwrites the message of the job whose result it waits for. -/
theorem resumeStep_getMessage {j : Job} (hs : ResumeStep s c o s') (hj : s'.getMessage j ≠ s.getMessage j) :
    ∃ id msgs recvd, c = .result j id msgs recvd ∧ ((∃ msg, o = .result msg) ∨ ∃ msg, o = .unparsable msg) := by
  cases hs with
  | announced =>
    rw [sendLoop_eq] at hj
    exact absurd rfl hj
  | @result exp id msgs recvd msg =>
    obtain rfl : exp = j := by
      by_contra hne
      exact hj (getMessage_setMessage_of_ne hne)
    exact ⟨id, msgs, recvd, rfl, Or.inl ⟨msg, rfl⟩⟩
  | @unparsable exp id msgs recvd msg =>
    obtain rfl : exp = j := by
      by_contra hne
      exact hj (getMessage_setMessage_of_ne hne)
    exact ⟨id, msgs, recvd, rfl, Or.inr ⟨msg, rfl⟩⟩
  | _ => exact absurd rfl hj

theorem campaignStep_getMessage {c : Campaign M} {j : Job} (hs : CampaignStep s c s') (hj : j < s.data.length) :
    s'.getMessage j = s.getMessage j := by
  cases hs with
  | enqueue =>
    show ((s.data ++ _)[j]?).map _ = _
    rw [List.getElem?_append_left hj]
    rfl
  | _ => rfl

end JobServer

end FailStar
