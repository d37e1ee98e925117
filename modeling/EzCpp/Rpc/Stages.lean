import EzCpp.Rpc.Answers
import EzCpp.Rpc.Delivery
import EzCpp.Rpc.Remote
import Mathlib.Algebra.GroupWithZero.Nat

/-!
# Where a remote call is

Each call is followed by its peer and id through the requests on their way, the inbox and the tasks
of the server, the replies on their way, and the client (`Stage`). Every event moves at most one
call, one stage further (`Stage.step`), so along every run each call is at one stage (`Invariant`).
-/

namespace EzCpp.Rpc.Remote

open EzCpp.Lib

variable {ν : Type}

/-! ## Where a call is -/

section Way

variable (pb : Protobuf) {schemas : List (Schema ν)} (peerId : PeerId) (id : RequestId)

/-- What happens in one client. -/
def clientEvents (es : List (Event schemas)) : List Client.Event :=
  es.flatMap fun
    | .call peer id _ =>
      if peer = peerId then [.invoke id, .sendDone id true, .register id] else []
    | .receive peer data => if peer = peerId then [.receive data] else []
    | .wake peer i => if peer = peerId then [.run i] else []
    | _ => []

def asks (m : Message) : Bool := m.key? pb.deserializeRequest = some (peerId, id)

def answers (p : PeerId × ByteArray) : Bool :=
  p.1 = peerId ∧ (pb.deserializeReply p.2).map Reply.requestId = some id

/-- Everything that is there for the call with this id of this client. -/
structure View (ν : Type) where
  requests : List Message := []
  inbox : List Message := []
  jobs : List (Job ν) := []
  replies : List (PeerId × ByteArray) := []
  ended : List (Run ν) := []
  received : Option RawReply := none

def view (es : List (Event schemas)) (s : State ν) : View ν where
  requests := s.requests.filter (asks pb peerId id)
  inbox := s.server.inbox.filter (asks pb peerId id)
  jobs := s.server.jobs.filter fun job => job.key = (peerId, id)
  replies := s.replies.filter (answers pb peerId id)
  ended := s.ended.filter fun r => (r.peerId, r.id) = (peerId, id)
  received := Client.firstReply pb.deserializeReply id (clientEvents peerId es)

def Call.message (c : Call schemas) : Message := ⟨peerId, pb.serializeRequest (c.request id)⟩

/-- The run of its implementation for this call that ended so. -/
def Call.run (c : Call schemas) (ending : Ending ν) : Run ν :=
  ⟨peerId, id, c.function.served, c.args, c.function.outcome ending⟩

/-- How far a call is on its way; `none` when there is no such call. -/
inductive Stage : Option (Call schemas) → View ν → Prop
  | idle : Stage none {}
  | requested {c : Call schemas} : Stage (some c) { requests := [c.message pb peerId id] }
  | arrived {c : Call schemas} : Stage (some c) { inbox := [c.message pb peerId id] }
  | taken {c : Call schemas} : Stage (some c)
      { jobs := [.exec (some c.function.served) (c.request id).arguments peerId id] }
  | running {c : Call schemas} : Stage (some c)
      { jobs := [.awaiting c.function.served c.args peerId id] }
  /-- there was no implementation to run -/
  | unbound {c : Call schemas} (unbound : c.function.served.bound = false) : Stage (some c) {}
  | answered {c : Call schemas} {result : Except Error ν}
      (may : c.function.MayEnd c.args (some result)) : Stage (some c)
      { replies := [(peerId, pb.serializeReply ⟨id, c.function.payload result⟩)]
        ended := [c.run peerId id (some result)] }
  | received {c : Call schemas} {result : Except Error ν}
      (may : c.function.MayEnd c.args (some result)) : Stage (some c)
      { ended := [c.run peerId id (some result)]
        received := some (c.function.payload result).read }
  /-- the implementation has ended with another exception -/
  | thrown {c : Call schemas} (may : c.function.MayEnd c.args none) : Stage (some c)
      { ended := [c.run peerId id none] }

end Way

section Steps

variable {pb : Protobuf} {schemas : List (Schema ν)} {peerId : PeerId} {id : RequestId}
  {es : List (Event schemas)} {e : Event schemas} {s t : State ν} {oc : Option (Call schemas)}
  {m : Message} {i : Nat}

/-! ### Lists -/

theorem split_of_getElem? {α : Type} {l : List α} {a : α} (h : l[i]? = some a) :
    ∃ l₁ l₂, l = l₁ ++ a :: l₂ ∧ l.eraseIdx i = l₁ ++ l₂ ∧ ∀ b, l.set i b = l₁ ++ b :: l₂ := by
  obtain ⟨hlt, rfl⟩ := List.getElem?_eq_some_iff.mp h
  refine ⟨l.take i, l.drop (i + 1), ?_, List.eraseIdx_eq_take_drop_succ l i, fun b => ?_⟩
  · rw [List.getElem_cons_drop, List.take_append_drop]
  · rw [List.set_eq_take_append_cons_drop, if_pos hlt]

/-- The one element that a filter lets through. -/
theorem filter_eq_nil_of_singleton {α : Type} {p : α → Bool} {l₁ l₂ : List α} {a b : α}
    (hp : p a = true) (h : (l₁ ++ a :: l₂).filter p = [b]) :
    a = b ∧ l₁.filter p = [] ∧ l₂.filter p = [] := by
  rw [List.filter_append, List.filter_cons_of_pos hp, List.append_eq_singleton_iff] at h
  rcases h with ⟨h₁, h₂⟩ | ⟨-, h₂⟩
  · obtain ⟨hab, h₂⟩ := List.cons_eq_cons.mp h₂
    exact ⟨hab, h₁, h₂⟩
  · cases h₂

/-! ### What an event changes -/

theorem clientEvents_concat :
    clientEvents peerId (es ++ [e]) = clientEvents peerId es ++ clientEvents peerId [e] :=
  List.flatMap_append

/-- An event that no client takes part in. -/
theorem clientEvents_concat_of_nil (h : clientEvents peerId [e] = []) :
    clientEvents peerId (es ++ [e]) = clientEvents peerId es := by
  rw [clientEvents_concat, h, List.append_nil]

/-! ### Requests -/

theorem Stage.arrive (h : Stage pb peerId id oc (view pb peerId id es s))
    (he : step pb s (.arrive m : Event schemas) = some t) :
    Stage pb peerId id oc (view pb peerId id (es ++ [.arrive m]) t) := by
  simp only [step] at he
  split at he
  next hm =>
    obtain ⟨server, hserver, rfl⟩ := Option.map_eq_some_iff.mp he
    obtain ⟨-, ⟨⟩⟩ := serverStep_eq_some.mp hserver
    have hview : view pb peerId id (es ++ [.arrive m]) { s with
        server := { s.server with inbox := s.server.inbox ++ [m] }
        requests := s.requests.erase m } = { view pb peerId id es s with
          requests := (view pb peerId id es s).requests.erase m
          inbox := (view pb peerId id es s).inbox ++ [m].filter (asks pb peerId id) } := by
      have hsame : clientEvents peerId (es ++ [.arrive m]) = clientEvents peerId es :=
        clientEvents_concat_of_nil rfl
      simp only [view, List.filter_append, List.erase_filter, hsame]
    rw [hview]
    by_cases hk : asks pb peerId id m = true
    · have hmem : m ∈ (view pb peerId id es s).requests := List.mem_filter.mpr ⟨hm, hk⟩
      rw [List.filter_cons_of_pos hk]
      generalize view pb peerId id es s = v at h hmem ⊢
      cases h with
      | requested =>
        cases List.mem_singleton.mp hmem
        simpa using Stage.arrived
      | _ => cases hmem
    · have hmem : m ∉ (view pb peerId id es s).requests := fun hm => hk (List.mem_filter.mp hm).2
      rw [List.filter_cons_of_neg hk, List.erase_of_not_mem hmem, List.filter_nil, List.append_nil]
      exact h
  next => cases he

variable (pb peerId id) in
theorem Call.asks_message (c : Call schemas) :
    asks pb peerId id (c.message pb peerId id) = true := by
  simp [asks, Message.key?, Call.message, pb.inverts_request, Call.request]

variable (pb schemas) in
/-- What `poll` makes of a message. -/
def polled (m : Message) : List (Job ν) :=
  ((pb.deserializeRequest m.payload).map (tasks (schemas.map Schema.served) m.peerId)).getD []

theorem filter_polled (ms : List Message) :
    (ms.flatMap (polled pb schemas)).filter (fun job => job.key = (peerId, id)) =
      (ms.filter (asks pb peerId id)).flatMap (polled pb schemas) := by
  induction ms with
  | nil => rfl
  | cons m ms ih =>
    rw [List.flatMap_cons, List.filter_append, ih]
    have hkeys : ∀ job ∈ polled pb schemas m, m.key? pb.deserializeRequest = some job.key := by
      intro job hj
      unfold polled at hj
      cases hr : pb.deserializeRequest m.payload with
      | none => simp [hr] at hj
      | some r =>
        have : job.key = (m.peerId, r.id) := by
          simp only [hr, Option.map_some, Option.getD_some, tasks, List.mem_append,
            List.mem_singleton] at hj
          rcases hj with hj | rfl
          · split at hj
            · cases List.mem_singleton.mp hj
              rfl
            · cases hj
          · rfl
        rw [Message.key?, hr, this, Option.map_some]
    by_cases hk : asks pb peerId id m = true
    · rw [List.filter_cons_of_pos hk, List.flatMap_cons, List.filter_eq_self.mpr]
      intro job hj
      have := (hkeys job hj).symm.trans (of_decide_eq_true hk)
      simpa using this
    · rw [List.filter_cons_of_neg hk, List.filter_eq_nil_iff.mpr, List.nil_append]
      intro job hj hjk
      exact hk (decide_eq_true ((hkeys job hj).trans (congrArg some (of_decide_eq_true hjk))))

/-- The task for a call. -/
theorem Call.polled_message (hd : Distinct schemas) (c : Call schemas) :
    polled pb schemas (c.message pb peerId id) =
      [.exec (some c.function.served) (c.request id).arguments peerId id] := by
  have hf := findFunction_served hd c.schema_mem c.function_mem
  simp [polled, Call.message, pb.inverts_request, tasks, Call.request, hf]

theorem Stage.poll (hd : Distinct schemas) (h : Stage pb peerId id oc (view pb peerId id es s))
    (he : step pb s (.poll : Event schemas) = some t) :
    Stage pb peerId id oc (view pb peerId id (es ++ [.poll]) t) := by
  obtain ⟨server, hserver, rfl⟩ := Option.map_eq_some_iff.mp he
  obtain ⟨-, ⟨⟩⟩ := serverStep_eq_some.mp hserver
  have hview : view pb peerId id (es ++ [.poll])
      (s.serve pb (s.server.poll pb.deserializeRequest (schemas.map Schema.served))) =
        { view pb peerId id es s with
          inbox := []
          jobs := (view pb peerId id es s).jobs ++
            (view pb peerId id es s).inbox.flatMap (polled pb schemas) } := by
    have hsame : clientEvents peerId (es ++ [.poll]) = clientEvents peerId es :=
      clientEvents_concat_of_nil rfl
    simp only [view, State.serve, poll_eq, List.drop_length, List.map_nil, List.append_nil,
      List.filter_nil, List.filter_append, hsame]
    rw [← filter_polled]
    rfl
  rw [hview]
  generalize view pb peerId id es s = v at h ⊢
  cases h with
  | idle => exact .idle
  | requested => exact .requested
  | arrived =>
    simp only [List.flatMap_singleton, Call.polled_message hd, List.nil_append]
    exact .taken
  | taken => exact .taken
  | running => exact .running
  | unbound hb => exact .unbound hb
  | answered hm => exact .answered hm
  | received hm => exact .received hm
  | thrown hm => exact .thrown hm

/-! ### Tasks -/

/-- `exec` replies to its own request. -/
theorem reply_sent (s : Rpc.State ν) (peerId : PeerId) (id : RequestId)
    (result : Except Error RawReply) : ∃ payload,
    (s.reply peerId id result).sent = s.sent ++ [(peerId, ⟨id, payload⟩)] ∧
      (s.reply peerId id result).inbox = s.inbox ∧ (s.reply peerId id result).jobs = s.jobs := by
  match result with
  | .error e | .ok (.error e) => exact ⟨.error e, rfl, rfl, rfl⟩
  | .ok (.ok value) => exact ⟨.value value, rfl, rfl, rfl⟩

/-- How many steps a task leads to at most: its own, and the two of a client for its reply. -/
def jobWork : Job ν → Nat
  | .notFound _ _ => 3
  | .exec _ _ _ _ => 4
  | .awaiting _ _ _ _ => 3

def jobsWork (jobs : List (Job ν)) : Nat := (jobs.map jobWork).sum

theorem jobsWork_eraseIdx {jobs : List (Job ν)} {job : Job ν} (h : jobs[i]? = some job) :
    jobsWork (jobs.eraseIdx i) + jobWork job = jobsWork jobs := by
  obtain ⟨l₁, l₂, hl, herase, -⟩ := split_of_getElem? h
  rw [herase, hl]
  simp only [jobsWork, List.map_append, List.map_cons, List.sum_append, List.sum_cons]
  omega

theorem jobsWork_set {jobs : List (Job ν)} {job : Job ν} (h : jobs[i]? = some job)
    (next : Job ν) :
    jobsWork (jobs.set i next) + jobWork job = jobsWork jobs + jobWork next := by
  obtain ⟨l₁, l₂, hl, -, hset⟩ := split_of_getElem? h
  rw [hset, hl]
  simp only [jobsWork, List.map_append, List.map_cons, List.sum_append, List.sum_cons]
  omega

/-- A task of the server has gone on, to what is in its place now, and has sent this. -/
structure TaskStep (job : Job ν) (s t : Rpc.State ν) (i : Nat) : Prop where
  inbox : t.inbox = s.inbox
  work : jobsWork t.jobs + 2 * t.sent.length < jobsWork s.jobs + 2 * s.sent.length
  sent : ∃ new, t.sent = s.sent ++ new ∧ ∀ p ∈ new, (p.1, p.2.requestId) = job.key
  jobs : t.jobs = s.jobs.eraseIdx i ∨ ∃ next, next.key = job.key ∧ t.jobs = s.jobs.set i next

theorem taskStep {e : Rpc.Event} {s t : Rpc.State ν} {parse : ByteArray → Option Request}
    {schemas : List (Rpc.Schema ν)} (he : e = .run i ∨ ∃ o, e = .finish i o)
    (h : Rpc.step parse schemas s e = some t) :
    ∃ job, s.jobs[i]? = some job ∧ TaskStep job s t i := by
  have finished {job : Job ν} {t : Rpc.State ν} {new : List (PeerId × Reply)}
      (hi : s.jobs[i]? = some job) (hinbox : t.inbox = s.inbox) (hsent : t.sent = s.sent ++ new)
      (hjobs : t.jobs = s.jobs.eraseIdx i) (hnew : ∀ p ∈ new, (p.1, p.2.requestId) = job.key)
      (hlength : new.length ≤ 1) : TaskStep job s t i := by
    refine ⟨hinbox, ?_, ⟨new, hsent, hnew⟩, .inl hjobs⟩
    have := jobsWork_eraseIdx hi
    have : 3 ≤ jobWork job := by cases job <;> simp [jobWork]
    rw [hjobs, hsent, List.length_append]
    omega
  have replied {job : Job ν} (hi : s.jobs[i]? = some job) (result : Except Error RawReply) :
      TaskStep job s ((s.drop i).reply job.key.1 job.key.2 result) i := by
    obtain ⟨payload, hsent, hinbox, hjobs⟩ :=
      reply_sent (s.drop i) job.key.1 job.key.2 result
    exact finished hi hinbox hsent hjobs (by simp) (by simp)
  have silent {job : Job ν} (hi : s.jobs[i]? = some job) (faults : List Fault) :
      TaskStep job s { s.drop i with faults } i :=
    finished hi rfl (List.append_nil _).symm rfl nofun (Nat.zero_le _)
  rcases he with rfl | ⟨o, rfl⟩ <;> simp only [Rpc.step] at h <;> split at h
  next peer reply hi =>
    cases h
    exact ⟨_, hi, finished hi rfl rfl rfl (by simp [Job.key]) (by simp)⟩
  next hi =>
    cases h
    exact ⟨_, hi, silent hi _⟩
  next f args peer id hi =>
    refine ⟨_, hi, ?_⟩
    split at h
    next vals hinvoke =>
      cases h
      refine ⟨rfl, ?_, ⟨[], (List.append_nil _).symm, nofun⟩,
        .inr ⟨.awaiting f vals peer id, rfl, rfl⟩⟩
      have := jobsWork_set hi (.awaiting f vals peer id)
      simp only [jobWork] at this
      show jobsWork (s.jobs.set i _) + 2 * s.sent.length < _
      omega
    · cases h
      exact replied hi _
    · cases h
      exact silent hi _
  next => cases h
  next f args peer id hi =>
    refine ⟨_, hi, ?_⟩
    split at h
    · cases h
      exact replied hi _
    · cases h
      exact silent hi _
  next => cases h

/-- A task leaves the calls alone that it is not for. -/
theorem TaskStep.view_eq {job : Job ν} {server : Rpc.State ν} {ended : List (Run ν)}
    (h : TaskStep job s.server server i) (hi : s.server.jobs[i]? = some job)
    (hk : job.key ≠ (peerId, id)) (he : clientEvents peerId [e] = [])
    (ht : t = { s.serve pb server with ended := s.ended ++ ended })
    (hended : ∀ r ∈ ended, (r.peerId, r.id) = job.key) :
    view pb peerId id (es ++ [e]) t = view pb peerId id es s := by
  subst ht
  obtain ⟨new, hsent, hnew⟩ := h.sent
  have hreplies : (new.map fun p => (p.1, pb.serializeReply p.2)).filter (answers pb peerId id) =
      [] := by
    rw [List.filter_eq_nil_iff]
    intro p hp hanswers
    obtain ⟨q, hq, rfl⟩ := List.mem_map.mp hp
    simp only [answers, pb.inverts_reply, Option.map_some, Option.some.injEq,
      decide_eq_true_eq] at hanswers
    exact hk ((hnew q hq).symm.trans (Prod.ext hanswers.1 hanswers.2))
  have hjobs : server.jobs.filter (fun job => job.key = (peerId, id)) =
      s.server.jobs.filter fun job => job.key = (peerId, id) := by
    obtain ⟨l₁, l₂, hl, herase, hset⟩ := split_of_getElem? hi
    rcases h.jobs with hj | ⟨next, hnext, hj⟩
    · rw [hj, herase, hl]
      simp [hk]
    · rw [hj, hset, hl]
      simp [hk, hnext]
  have hnone : ended.filter (fun r => (r.peerId, r.id) = (peerId, id)) = [] := by
    rw [List.filter_eq_nil_iff]
    intro r hr hrk
    exact hk ((hended r hr).symm.trans (of_decide_eq_true hrk))
  simp only [view, State.serve, h.inbox, hjobs, hsent, List.drop_left, List.filter_append,
    hreplies, hnone, List.append_nil, clientEvents_concat_of_nil he]

theorem Stage.of_mem_jobs {v : View ν} {job : Job ν} (h : Stage pb peerId id oc v)
    (hj : job ∈ v.jobs) : ∃ c, oc = some c ∧ v = { jobs := [job] } ∧
      (job = .exec (some c.function.served) (c.request id).arguments peerId id ∨
        job = .awaiting c.function.served c.args peerId id) := by
  cases h with
  | taken =>
    cases List.mem_singleton.mp hj
    exact ⟨_, rfl, rfl, .inl rfl⟩
  | running =>
    cases List.mem_singleton.mp hj
    exact ⟨_, rfl, rfl, .inr rfl⟩
  | _ => cases hj

/-- When the only task for a call is over, or goes on. -/
theorem view_of_task {job : Job ν} {server : Rpc.State ν} {ended : List (Run ν)} {jobs : List (Job ν)}
    {sent : List (PeerId × Reply)} (hv : view pb peerId id es s = { jobs := [job] })
    (hi : s.server.jobs[i]? = some job) (hk : job.key = (peerId, id))
    (he : clientEvents peerId [e] = [])
    (ht : t = { s.serve pb server with ended := s.ended ++ ended })
    (hinbox : server.inbox = s.server.inbox) (hsent : server.sent = s.server.sent ++ sent)
    (hjobs : server.jobs = s.server.jobs.eraseIdx i ∧ jobs = [] ∨
      ∃ next, next.key = (peerId, id) ∧ server.jobs = s.server.jobs.set i next ∧ jobs = [next]) :
    view pb peerId id (es ++ [e]) t =
      { jobs
        replies := (sent.map fun p => (p.1, pb.serializeReply p.2)).filter (answers pb peerId id)
        ended := ended.filter fun r => (r.peerId, r.id) = (peerId, id) } := by
  subst ht
  obtain ⟨l₁, l₂, hl, herase, hset⟩ := split_of_getElem? hi
  simp only [view, View.mk.injEq] at hv ⊢
  obtain ⟨hrequests, hinbox', hone, hreplies, hended, hreceived⟩ := hv
  rw [hl] at hone
  obtain ⟨-, hl₁, hl₂⟩ := filter_eq_nil_of_singleton (by simpa using hk) hone
  refine ⟨hrequests, ?_, ?_, ?_, ?_, ?_⟩
  · rw [State.serve, hinbox, hinbox']
  · rcases hjobs with ⟨hj, rfl⟩ | ⟨next, hnext, hj, rfl⟩
    · simp [State.serve, hj, herase, hl₁, hl₂]
    · simp [State.serve, hj, hset, hl₁, hl₂, hnext]
  · simp only [State.serve, hsent, List.drop_left, List.filter_append, hreplies, List.nil_append]
  · rw [List.filter_append, hended, List.nil_append]
  · rw [clientEvents_concat_of_nil he, hreceived]

theorem Stage.run (h : Stage pb peerId id oc (view pb peerId id es s))
    (he : step pb s (.run i : Event schemas) = some t) :
    Stage pb peerId id oc (view pb peerId id (es ++ [.run i]) t) := by
  obtain ⟨server, hserver, ht⟩ := Option.map_eq_some_iff.mp he
  obtain ⟨-, hserver⟩ := serverStep_eq_some.mp hserver
  obtain ⟨job, hi, htask⟩ := taskStep (.inl rfl) hserver
  have hend : t = { s.serve pb server with ended := s.ended ++ [] } := by
    rw [← ht, List.append_nil]
    rfl
  by_cases hk : job.key = (peerId, id)
  · have hj : job ∈ (view pb peerId id es s).jobs :=
      List.mem_filter.mpr ⟨List.mem_of_getElem? hi, decide_eq_true hk⟩
    obtain ⟨c, rfl, hv, hjob⟩ := h.of_mem_jobs hj
    simp only [Rpc.step, hi] at hserver
    rcases hjob with rfl | rfl
    · simp only [Call.request, Function.served_invoke c.args_hold] at hserver
      by_cases hb : c.function.served.bound = true
      · rw [if_pos hb] at hserver
        cases hserver
        rw [view_of_task hv hi hk rfl hend rfl (List.append_nil _).symm (.inr ⟨_, rfl, rfl, rfl⟩)]
        exact .running
      · rw [if_neg hb] at hserver
        cases hserver
        rw [view_of_task hv hi hk rfl hend rfl (List.append_nil _).symm (.inl ⟨rfl, rfl⟩)]
        exact .unbound (eq_false_of_ne_true hb)
    · cases hserver
  · rw [htask.view_eq hi hk rfl hend fun _ hr => absurd hr List.not_mem_nil]
    exact h

theorem filter_replied {payload : Payload} :
    ([(peerId, (⟨id, payload⟩ : Reply))].map fun p => (p.1, pb.serializeReply p.2)).filter
      (answers pb peerId id) = [(peerId, pb.serializeReply ⟨id, payload⟩)] := by
  simp [answers, pb.inverts_reply]

theorem filter_ended {f : Rpc.Function ν} {args : List ν} {o : Outcome} :
    [(⟨peerId, id, f, args, o⟩ : Run ν)].filter (fun r => (r.peerId, r.id) = (peerId, id)) =
      [⟨peerId, id, f, args, o⟩] := by
  simp

theorem Stage.finish {o : Outcome} (h : Stage pb peerId id oc (view pb peerId id es s))
    (he : step pb s (.finish i o : Event schemas) = some t) :
    Stage pb peerId id oc (view pb peerId id (es ++ [.finish i o]) t) := by
  simp only [step] at he
  split at he
  next f args peer id' hi =>
    split at he
    next hends =>
      obtain ⟨server, hserver, ht⟩ := Option.map_eq_some_iff.mp he
      obtain ⟨-, hserver⟩ := serverStep_eq_some.mp hserver
      by_cases hk : (peer, id') = (peerId, id)
      · cases hk
        have hj : Job.awaiting f args peerId id ∈ (view pb peerId id es s).jobs :=
          List.mem_filter.mpr ⟨List.mem_of_getElem? hi, decide_eq_true rfl⟩
        obtain ⟨c, rfl, hv, ⟨⟨⟩⟩ | ⟨⟨⟩⟩⟩ := h.of_mem_jobs hj
        obtain ⟨ending, may, rfl⟩ := Function.served_ends_iff.mp hends
        simp only [Rpc.step, hi] at hserver
        cases ending with
        | some result =>
          cases result
          all_goals
            cases hserver
            rw [view_of_task hv hi rfl rfl ht.symm rfl rfl (.inl ⟨rfl, rfl⟩), filter_replied,
              filter_ended]
            exact .answered may
        | none =>
          cases hserver
          rw [view_of_task hv hi rfl rfl ht.symm rfl (List.append_nil _).symm (.inl ⟨rfl, rfl⟩),
            filter_ended]
          exact .thrown may
      · obtain ⟨job, hi', htask⟩ := taskStep (.inr ⟨_, rfl⟩) hserver
        rw [hi] at hi'
        cases hi'
        rw [htask.view_eq hi hk rfl ht.symm (by simp [Job.key])]
        exact h
    next => cases he
  next => cases he

/-! ### Clients -/

theorem mem_clientEvents :
    .invoke id ∈ clientEvents peerId es ↔ ∃ c, (.call peerId id c : Event schemas) ∈ es := by
  simp only [clientEvents, List.mem_flatMap]
  constructor
  · rintro ⟨e, he, hi⟩
    cases e with
    | call peer id' c =>
      simp only [List.mem_ite_nil_right, List.mem_cons, Client.Event.invoke.injEq, reduceCtorEq,
        List.not_mem_nil, or_false] at hi
      obtain ⟨rfl, rfl⟩ := hi
      exact ⟨c, he⟩
    | receive peer data => simp at hi
    | wake peer i => simp at hi
    | _ => cases hi
  · rintro ⟨c, hc⟩
    exact ⟨_, hc, by simp⟩

/-- Only a reply that is for this call changes what it has received. -/
theorem firstReply_append {ds : List Client.Event} {parse : ByteArray → Option Reply}
    (h : ∀ d ∈ ds, Client.replyTo parse id d = none) {cs : List Client.Event} :
    Client.firstReply parse id (cs ++ ds) = Client.firstReply parse id cs := by
  induction ds using List.reverseRecOn with
  | nil => rw [List.append_nil]
  | append_singleton ds d ih =>
    rw [← List.append_assoc, Client.firstReply_concat_of_none (h d (by simp)),
      ih fun d hd => h d (List.mem_append_left _ hd)]

theorem Stage.receive {peer : PeerId} {data : ByteArray}
    (h : Stage pb peerId id oc (view pb peerId id es s))
    (hc : oc ≠ none → .invoke id ∈ clientEvents peerId es)
    (he : step pb s (.receive peer data : Event schemas) = some t) :
    Stage pb peerId id oc (view pb peerId id (es ++ [.receive peer data]) t) := by
  simp only [step] at he
  split at he
  next hm =>
    obtain ⟨client, hclient, rfl⟩ := Option.map_eq_some_iff.mp he
    have hview : view pb peerId id (es ++ [.receive peer data]) { s.setClient peer client with
        replies := s.replies.erase (peer, data) } = { view pb peerId id es s with
          replies := (view pb peerId id es s).replies.erase (peer, data)
          received := Client.firstReply pb.deserializeReply id (clientEvents peerId es ++
            clientEvents peerId [(.receive peer data : Event schemas)]) } := by
      simp only [view, State.setClient, List.erase_filter, clientEvents_concat]
    rw [hview]
    by_cases hk : answers pb peerId id (peer, data) = true
    · have hmem : (peer, data) ∈ (view pb peerId id es s).replies := List.mem_filter.mpr ⟨hm, hk⟩
      have hpeer : peer = peerId := (of_decide_eq_true hk).1
      subst hpeer
      have hreceived : Client.firstReply pb.deserializeReply id (clientEvents peer es) =
        (view pb peer id es s).received := rfl
      have hevents : clientEvents peer [(.receive peer data : Event schemas)] = [.receive data] := by
        simp [clientEvents]
      generalize view pb peer id es s = v at h hmem hreceived ⊢
      cases h with
      | @answered c result may =>
        cases List.mem_singleton.mp hmem
        rw [hevents, Client.firstReply_concat (hc nofun), hreceived]
        simpa [Client.replyTo, pb.inverts_reply] using Stage.received may
      | _ => cases hmem
    · have hmem : (peer, data) ∉ (view pb peerId id es s).replies :=
        fun hm => hk (List.mem_filter.mp hm).2
      have hnone : ∀ d ∈ clientEvents peerId [(.receive peer data : Event schemas)],
          Client.replyTo pb.deserializeReply id d = none := by
        intro d hd
        simp only [clientEvents, List.flatMap_singleton, List.mem_ite_nil_right,
          List.mem_singleton] at hd
        obtain ⟨rfl, rfl⟩ := hd
        cases hp : pb.deserializeReply data with
        | none => simp [Client.replyTo, hp]
        | some reply =>
          have : reply.requestId ≠ id := fun heq => hk (by simp [answers, hp, heq])
          simp [Client.replyTo, hp, this]
      rw [List.erase_of_not_mem hmem, firstReply_append hnone]
      exact h
  next => cases he

theorem Stage.wake {peer : PeerId} (h : Stage pb peerId id oc (view pb peerId id es s))
    (he : step pb s (.wake peer i : Event schemas) = some t) :
    Stage pb peerId id oc (view pb peerId id (es ++ [.wake peer i]) t) := by
  obtain ⟨client, hclient, rfl⟩ := Option.map_eq_some_iff.mp he
  have hview : view pb peerId id (es ++ [.wake peer i]) (s.setClient peer client) =
      view pb peerId id es s := by
    simp only [view, State.setClient, clientEvents_concat]
    rw [firstReply_append]
    intro d hd
    simp only [clientEvents, List.flatMap_singleton, List.mem_ite_nil_right,
      List.mem_singleton] at hd
    rw [hd.2]
    rfl
  rw [hview]
  exact h

/-- What a new call adds for it and for every other one. -/
theorem view_call {peer : PeerId} {id' : RequestId} {c : Call schemas}
    (he : step pb s (.call peer id' c) = some t) :
    view pb peerId id (es ++ [.call peer id' c]) t = { view pb peerId id es s with
      requests := (view pb peerId id es s).requests ++
        if (peer, id') = (peerId, id) then [c.message pb peerId id] else [] } := by
  obtain ⟨client, hclient, rfl⟩ := Option.map_eq_some_iff.mp he
  have hmessage : [c.message pb peer id'].filter (asks pb peerId id) =
      if (peer, id') = (peerId, id) then [c.message pb peerId id] else [] := by
    split
    next heq =>
      cases heq
      exact List.filter_cons_of_pos (c.asks_message pb peerId id)
    next hne =>
      refine List.filter_cons_of_neg fun hk => hne ?_
      have hown := of_decide_eq_true (c.asks_message pb peer id')
      exact Option.some.inj (hown.symm.trans (of_decide_eq_true hk))
  have hreceived : Client.firstReply pb.deserializeReply id
      (clientEvents peerId (es ++ [.call peer id' c])) =
        Client.firstReply pb.deserializeReply id (clientEvents peerId es) := by
    rw [clientEvents_concat, firstReply_append]
    intro d hd
    simp only [clientEvents, List.flatMap_singleton, List.mem_ite_nil_right, List.mem_cons,
      List.not_mem_nil, or_false] at hd
    rcases hd.2 with rfl | rfl | rfl <;> rfl
  rw [← hmessage]
  simp only [view, State.setClient, List.filter_append, hreceived, Call.message]

/-! ### Runs -/

/-- An event in one client is an event of that client. -/
theorem clientStep_of_step (he : step pb s e = some t) :
    runs (clientStep pb) (s.clients peerId) (clientEvents peerId [e]) = some (t.clients peerId) := by
  have other {peer : PeerId} {client : Client.State} (hne : peer ≠ peerId) :
      some (s.clients peerId) = some ((s.setClient peer client).clients peerId) := by
    simp [State.setClient, Function.update_of_ne hne.symm]
  cases e with
  | call peer id c =>
    obtain ⟨client, hclient, rfl⟩ := Option.map_eq_some_iff.mp he
    by_cases hp : peer = peerId
    · subst hp
      simpa [clientEvents, State.setClient] using hclient
    · simpa [clientEvents, hp] using other hp
  | arrive m =>
    simp only [step] at he
    split at he
    · obtain ⟨server, -, rfl⟩ := Option.map_eq_some_iff.mp he
      rfl
    · cases he
  | poll =>
    simp only [step, Option.map_eq_some_iff] at he
    obtain ⟨server, -, rfl⟩ := he
    rfl
  | run i =>
    obtain ⟨server, -, rfl⟩ := Option.map_eq_some_iff.mp he
    rfl
  | finish i o =>
    simp only [step] at he
    split at he
    · split at he
      · obtain ⟨server, -, rfl⟩ := Option.map_eq_some_iff.mp he
        rfl
      · cases he
    · cases he
  | receive peer data =>
    simp only [step] at he
    split at he
    · obtain ⟨client, hclient, rfl⟩ := Option.map_eq_some_iff.mp he
      by_cases hp : peer = peerId
      · subst hp
        simpa [clientEvents, State.setClient, runs] using hclient
      · simpa [clientEvents, hp] using other hp
    · cases he
  | wake peer i =>
    obtain ⟨client, hclient, rfl⟩ := Option.map_eq_some_iff.mp he
    by_cases hp : peer = peerId
    · subst hp
      simpa [clientEvents, State.setClient, runs] using hclient
    · simpa [clientEvents, hp] using other hp

theorem awaited_append {parse : ByteArray → Option Reply} {cs ds : List Client.Event}
    (h : Client.Awaited parse cs) (hds : ∀ data, .receive data ∉ ds) :
    Client.Awaited parse (cs ++ ds) := by
  induction ds using List.reverseRecOn with
  | nil => rwa [List.append_nil]
  | append_singleton ds d ih =>
    rw [← List.append_assoc, Client.awaited_concat]
    refine ⟨ih fun data hd => hds data (List.mem_append_left _ hd), ?_⟩
    rintro data reply rfl
    exact absurd (by simp) (hds data)

/-- A call has registered its callback before any reply can come. -/
theorem awaited_clientEvents :
    Client.Awaited pb.deserializeReply (clientEvents peerId es) := by
  induction es using List.reverseRecOn with
  | nil => simp [clientEvents, Client.Awaited]
  | append_singleton es e ih =>
    rw [clientEvents_concat]
    cases e with
    | receive peer data =>
      by_cases hp : peer = peerId
      · have : clientEvents peerId [(.receive peer data : Event schemas)] = [.receive data] := by
          simp [clientEvents, hp]
        rw [this, Client.awaited_concat]
        refine ⟨ih, ?_⟩
        rintro _ reply ⟨⟩ - hi
        obtain ⟨c, hc⟩ := mem_clientEvents.mp hi
        exact List.mem_flatMap.mpr ⟨_, hc, by simp⟩
      · exact awaited_append ih (by simp [clientEvents, hp])
    | _ => exact awaited_append ih (by simp [clientEvents])

/-- Where every call is. -/
structure Invariant (pb : Protobuf) (es : List (Event schemas)) (s : State ν) : Prop where
  client : ∀ peerId, runs (clientStep pb) {} (clientEvents peerId es) = some (s.clients peerId)
  stage : ∀ peerId id c, .call peerId id c ∈ es →
    Stage pb peerId id (some c) (view pb peerId id es s)
  idle : ∀ peerId id, (∀ c : Call schemas, .call peerId id c ∉ es) →
    Stage pb peerId id (none : Option (Call schemas)) (view pb peerId id es s)

theorem Invariant.kept (h : Invariant pb es s) :
    Client.Kept pb.deserializeReply (clientEvents peerId es) (s.clients peerId) id := by
  rcases Client.kept_or_lost (h.client peerId) with ⟨-, hk, -⟩ | ⟨hno, -⟩
  · exact hk id
  · exact absurd awaited_clientEvents hno

/-- The id of a call is new. -/
theorem Invariant.fresh {c : Call schemas} (h : Invariant pb es s)
    (he : step pb s (.call peerId id c) = some t) (c' : Call schemas) :
    .call peerId id c' ∉ es := by
  intro hc
  obtain ⟨client, hclient, -⟩ := Option.map_eq_some_iff.mp he
  obtain ⟨_, hinvoke, -⟩ := runs_cons.mp hclient
  simp only [clientStep, Client.step, Option.ite_none_right_eq_some,
    Option.isNone_iff_eq_none] at hinvoke
  exact h.kept.invoked.mp hinvoke.1 (mem_clientEvents.mpr ⟨c', hc⟩)

theorem Stage.step {e : Event schemas} (hd : Distinct schemas) (hcall : e.isCall = false)
    (h : Stage pb peerId id oc (view pb peerId id es s))
    (hc : oc ≠ none → .invoke id ∈ clientEvents peerId es) (he : step pb s e = some t) :
    Stage pb peerId id oc (view pb peerId id (es ++ [e]) t) := by
  cases e with
  | call peer id' c => cases hcall
  | arrive m => exact h.arrive he
  | poll => exact h.poll hd he
  | run i => exact h.run he
  | finish i o => exact h.finish he
  | receive peer data => exact h.receive hc he
  | wake peer i => exact h.wake he

theorem Invariant.step {e : Event schemas} (hd : Distinct schemas) (h : Invariant pb es s)
    (he : step pb s e = some t) : Invariant pb (es ++ [e]) t := by
  have hclient peer : runs (clientStep pb) {} (clientEvents peer (es ++ [e])) =
      some (t.clients peer) := by
    rw [clientEvents_concat]
    exact runs_append.mpr ⟨_, h.client peer, clientStep_of_step he⟩
  by_cases hcall : e.isCall = true
  · cases e with
    | call peer id' c =>
      refine ⟨hclient, fun p i c' hc' => ?_, fun p i hno => ?_⟩ <;> rw [view_call he]
      · by_cases hk : (peer, id') = (p, i)
        · cases hk
          have hnew := h.fresh he
          have hstage := h.idle peer id' hnew
          have hcc : c' = c := by simpa [hnew c'] using hc'
          rw [hcc, if_pos rfl]
          generalize view pb peer id' es s = v at hstage ⊢
          cases hstage
          exact .requested
        · rw [if_neg hk, List.append_nil]
          refine h.stage p i c' ?_
          rcases List.mem_append.mp hc' with hc' | hc'
          · exact hc'
          · cases List.mem_singleton.mp hc'
            exact absurd rfl hk
      · have hk : (peer, id') ≠ (p, i) := by
          rintro ⟨⟩
          exact hno c (by simp)
        rw [if_neg hk, List.append_nil]
        exact h.idle p i fun c' hc' => hno c' (List.mem_append_left _ hc')
    | _ => cases hcall
  · have hcall := eq_false_of_ne_true hcall
    refine ⟨hclient, fun p i c hc => ?_, fun p i hno => ?_⟩
    · have hc : .call p i c ∈ es := by
        rcases List.mem_append.mp hc with hc | hc
        · exact hc
        · cases List.mem_singleton.mp hc
          cases hcall
      exact (h.stage p i c hc).step hd hcall (fun _ => mem_clientEvents.mpr ⟨c, hc⟩) he
    · exact (h.idle p i fun c hc => hno c (List.mem_append_left _ hc)).step hd hcall
        (fun hne => absurd rfl hne) he

theorem invariant_of_runs (hd : Distinct schemas) (h : runs (step pb) {} es = some s) :
    Invariant pb es s :=
  runs_induction (P := Invariant pb) ⟨fun _ => rfl, nofun, fun _ _ _ => .idle⟩
    (fun _ _ _ _ hinv he => hinv.step hd he) h

end Steps

end EzCpp.Rpc.Remote
