import EzCpp.Rpc.Stages
import Mathlib.Algebra.BigOperators.Group.Finset.Basic

/-!
# A remote call is the local call

The implementation of the function called runs at most once for a call, on its arguments, and what
the call returns is how that run ended. Every event but a new call leaves less to do, so a system in
which no new calls are made comes to rest. The server ends with the first value it sends, since the
wrapper of that task then reads a closure that is gone. At rest every call has returned just when all
implementations had ended by then (`remote_eq_local_iff`).
-/

namespace EzCpp.Rpc.Remote

open EzCpp.Lib

variable {ν : Type}

section Steps

variable {pb : Protobuf} {schemas : List (Schema ν)} {peerId : PeerId} {id : RequestId}
  {es : List (Event schemas)} {e : Event schemas} {s t : State ν} {i : Nat}

/-! ### Coming to rest -/

variable (pb schemas) in
/-- Something happens that is not a new call. -/
def Next (t s : State ν) : Prop :=
  ∃ e : Event schemas, e.isCall = false ∧ step pb s e = some t ∧ t ≠ s

variable (pb schemas) in
/-- Nothing more happens unless there is a new call. -/
def AtRest (s : State ν) : Prop := ∀ t, ¬ Next pb schemas t s

/-- Who has made a call. -/
def callers (es : List (Event schemas)) : List PeerId :=
  es.filterMap fun
    | .call peerId _ _ => some peerId
    | _ => none

/-- How many steps there are left at most, when these clients have made all the calls. -/
def work (peers : Finset PeerId) (s : State ν) : Nat :=
  9 * s.requests.length + 8 * s.server.inbox.length + jobsWork s.server.jobs +
    2 * s.replies.length + ∑ peer ∈ peers, (s.clients peer).posted.length

def Idle (peers : Finset PeerId) (s : State ν) : Prop := ∀ peer ∉ peers, s.clients peer = {}

variable {peers : Finset PeerId}

theorem sum_posted_setClient {peer : PeerId} (h : peer ∈ peers) (client : Client.State) :
    ∑ p ∈ peers, ((s.setClient peer client).clients p).posted.length +
        (s.clients peer).posted.length =
      ∑ p ∈ peers, (s.clients p).posted.length + client.posted.length := by
  rw [← Finset.add_sum_erase _ _ h, ← Finset.add_sum_erase peers _ h]
  have hrest : ∑ p ∈ peers.erase peer, ((s.setClient peer client).clients p).posted.length =
      ∑ p ∈ peers.erase peer, (s.clients p).posted.length := by
    refine Finset.sum_congr rfl fun p hp => ?_
    simp [State.setClient, Function.update_of_ne (Finset.ne_of_mem_erase hp)]
  have hself : (s.setClient peer client).clients peer = client := by simp [State.setClient]
  rw [hrest, hself]
  omega

theorem Idle.setClient {peer : PeerId} {client : Client.State} (h : Idle peers s)
    (hc : peer ∉ peers → client = {}) : Idle peers (s.setClient peer client) := by
  intro p hp
  by_cases heq : p = peer
  · subst heq
    simpa [State.setClient] using hc hp
  · simpa [State.setClient, Function.update_of_ne heq] using h p hp

variable (pb schemas) in
theorem jobsWork_polled (m : Message) : jobsWork (polled pb schemas m) ≤ 7 := by
  unfold polled
  cases pb.deserializeRequest m.payload with
  | none => simp [jobsWork]
  | some r =>
    simp only [Option.map_some, Option.getD_some, tasks]
    split <;> simp [jobsWork, jobWork]

variable (pb schemas) in
theorem jobsWork_flatMap_polled (ms : List Message) :
    jobsWork (ms.flatMap (polled pb schemas)) ≤ 7 * ms.length := by
  induction ms with
  | nil => simp [jobsWork]
  | cons m ms ih =>
    have hm := jobsWork_polled pb schemas m
    simp only [jobsWork, List.flatMap_cons, List.map_append, List.sum_append, List.length_cons]
      at ih hm ⊢
    omega

theorem posted_receive {client client' : Client.State} {data : ByteArray}
    (h : clientStep pb client (.receive data) = some client') :
    client'.posted.length ≤ client.posted.length + 1 := by
  simp only [clientStep, Client.step] at h
  split at h <;> cases h
  · omega
  · unfold Client.State.receive
    split <;> simp

/-- What the server's tasks lead to is less than before. -/
theorem work_serve {server : Rpc.State ν} {ended : List (Run ν)}
    (hinbox : server.inbox = s.server.inbox)
    (hwork : jobsWork server.jobs + 2 * server.sent.length <
      jobsWork s.server.jobs + 2 * s.server.sent.length)
    (hsent : s.server.sent.length ≤ server.sent.length) :
    work peers { s.serve pb server with ended } < work peers s := by
  simp only [work, State.serve, hinbox, List.length_append, List.length_map, List.length_drop]
  omega

theorem TaskStep.length_sent {job : Job ν} {server server' : Rpc.State ν}
    (h : TaskStep job server server' i) : server.sent.length ≤ server'.sent.length := by
  obtain ⟨new, hsent, -⟩ := h.sent
  rw [hsent, List.length_append]
  omega

theorem serve_poll_of_nil (h : s.server.inbox = []) :
    s.serve pb (s.server.poll pb.deserializeRequest (schemas.map Schema.served)) = s := by
  obtain ⟨⟨inbox, jobs, sent, faults⟩, clients, requests, replies, ended⟩ := s
  cases h
  simp [State.serve, poll_eq]

theorem work_arrive {m : Message} (hidle : Idle peers s) (he : step pb s (.arrive m : Event schemas) = some t) :
    Idle peers t ∧ work peers t < work peers s := by
  simp only [step] at he
  split at he
  next hm =>
    obtain ⟨server, hserver, rfl⟩ := Option.map_eq_some_iff.mp he
    obtain ⟨-, ⟨⟩⟩ := serverStep_eq_some.mp hserver
    refine ⟨hidle, ?_⟩
    have := List.length_erase_of_mem hm
    have := List.length_pos_of_mem hm
    simp only [work, List.length_append, List.length_singleton]
    omega
  next => cases he

/-- A request leads to less work than it was itself. -/
theorem work_poll (hinbox : s.server.inbox ≠ []) :
    work peers (s.serve pb (s.server.poll pb.deserializeRequest (schemas.map Schema.served))) <
      work peers s := by
  have := jobsWork_flatMap_polled pb schemas s.server.inbox
  have := List.length_pos_of_ne_nil hinbox
  unfold polled at *
  simp only [work, State.serve, poll_eq, List.drop_length, List.map_nil, List.append_nil,
    List.length_nil, jobsWork, List.map_append, List.sum_append] at *
  omega

/-- A reply posts one callback at most, and that to a peer that has called. -/
theorem work_receive {peer : PeerId} {data : ByteArray} (hidle : Idle peers s)
    (he : step pb s (.receive peer data : Event schemas) = some t) :
    Idle peers t ∧ work peers t < work peers s := by
  simp only [step] at he
  split at he
  next hm =>
    obtain ⟨client, hclient, rfl⟩ := Option.map_eq_some_iff.mp he
    have hlength := List.length_erase_of_mem hm
    have hpos := List.length_pos_of_mem hm
    have hposted := posted_receive hclient
    have hempty : peer ∉ peers → client = {} := by
      intro hp
      rw [hidle peer hp] at hclient
      simp only [clientStep, Client.step] at hclient
      split at hclient <;> cases hclient <;> rfl
    refine ⟨hidle.setClient hempty, ?_⟩
    have hsum : ∑ p ∈ peers, ((s.setClient peer client).clients p).posted.length ≤
        ∑ p ∈ peers, (s.clients p).posted.length + 1 := by
      by_cases hp : peer ∈ peers
      · have := sum_posted_setClient (s := s) hp client
        omega
      · have : s.setClient peer client = s := by
          rw [hempty hp, ← hidle peer hp, State.setClient, Function.update_eq_self]
        rw [this]
        omega
    simp only [work, State.setClient] at hsum ⊢
    omega
  next => cases he

theorem work_wake {peer : PeerId} {i : Nat} (hidle : Idle peers s)
    (he : step pb s (.wake peer i : Event schemas) = some t) :
    Idle peers t ∧ work peers t < work peers s := by
  obtain ⟨client, hclient, rfl⟩ := Option.map_eq_some_iff.mp he
  obtain ⟨callback, hi, heq⟩ := Option.map_eq_some_iff.mp hclient
  have hp : peer ∈ peers := by
    by_contra hp
    rw [hidle peer hp] at hi
    cases hi
  refine ⟨hidle.setClient fun hno => absurd hp hno, ?_⟩
  have hposted : client.posted.length + 1 = (s.clients peer).posted.length := by
    have hlt := (List.getElem?_eq_some_iff.mp hi).1
    have hlength := List.length_eraseIdx_of_lt hlt
    rw [← heq]
    cases callback <;> simp only [Client.State.wake] <;> omega
  have hsum := sum_posted_setClient (s := s) hp client
  simp only [work, State.setClient] at hsum ⊢
  omega

/-- **Every event but a new call leaves less to do**, unless nothing happens. -/
theorem work_lt (hidle : Idle peers s) (hcall : e.isCall = false) (he : step pb s e = some t) :
    Idle peers t ∧ (work peers t < work peers s ∨ t = s) := by
  cases e with
  | call peer id c => cases hcall
  | arrive m =>
    obtain ⟨hidle', hlt⟩ := work_arrive hidle he
    exact ⟨hidle', .inl hlt⟩
  | poll =>
    obtain ⟨server, hserver, rfl⟩ := Option.map_eq_some_iff.mp he
    obtain ⟨-, ⟨⟩⟩ := serverStep_eq_some.mp hserver
    refine ⟨hidle, ?_⟩
    by_cases hnil : s.server.inbox = []
    · exact .inr (serve_poll_of_nil hnil)
    · exact .inl (work_poll hnil)
  | run i =>
    obtain ⟨server, hserver, rfl⟩ := Option.map_eq_some_iff.mp he
    obtain ⟨-, hserver⟩ := serverStep_eq_some.mp hserver
    obtain ⟨job, hi, htask⟩ := taskStep (.inl rfl) hserver
    exact ⟨hidle, .inl (work_serve htask.inbox htask.work htask.length_sent)⟩
  | finish i o =>
    simp only [step] at he
    split at he
    · split at he
      · obtain ⟨server, hserver, rfl⟩ := Option.map_eq_some_iff.mp he
        obtain ⟨-, hserver⟩ := serverStep_eq_some.mp hserver
        obtain ⟨job, hi, htask⟩ := taskStep (.inr ⟨_, rfl⟩) hserver
        exact ⟨hidle, .inl (work_serve htask.inbox htask.work htask.length_sent)⟩
      · cases he
    · cases he
  | receive peer data =>
    obtain ⟨hidle', hlt⟩ := work_receive hidle he
    exact ⟨hidle', .inl hlt⟩
  | wake peer i =>
    obtain ⟨hidle', hlt⟩ := work_wake hidle he
    exact ⟨hidle', .inl hlt⟩

theorem idle_callers (h : runs (step pb) {} es = some s) : Idle (callers es).toFinset s := by
  refine runs_induction (P := fun es s => Idle (callers es).toFinset s) (fun _ _ => rfl) ?_ h
  intro es s e t ih he
  by_cases hcall : e.isCall = true
  · cases e with
    | call peer id c =>
      obtain ⟨client, -, rfl⟩ := Option.map_eq_some_iff.mp he
      have hcallers : callers (es ++ [.call peer id c]) = callers es ++ [peer] :=
        List.filterMap_append
      rw [hcallers]
      intro p hp
      have hne : p ≠ peer := by
        rintro rfl
        simp at hp
      have := ih p fun hm => hp (by simp [List.mem_toFinset.mp hm])
      simpa [State.setClient, Function.update_of_ne hne] using this
    | _ => cases hcall
  · have hsame : callers (es ++ [e]) = callers es := by
      rw [callers, List.filterMap_append]
      cases e with
      | call peer id c => exact absurd rfl hcall
      | _ => exact List.append_nil _
    rw [hsame]
    exact (work_lt ih (eq_false_of_ne_true hcall) he).1

/-- **Without new calls everything comes to rest.** -/
theorem acc_next (hidle : Idle peers s) : Acc (Next pb schemas) s := by
  induction hw : work peers s using Nat.strong_induction_on generalizing s with
  | _ n ih =>
    refine .intro s fun t ⟨e, hcall, he, hne⟩ => ?_
    obtain ⟨hidle, hlt | rfl⟩ := work_lt hidle hcall he
    · exact ih _ (hw ▸ hlt) hidle rfl
    · exact absurd rfl hne

/-- At rest no event but a call is left that does anything. -/
theorem AtRest.eq_of_step (h : AtRest pb schemas s) (hcall : e.isCall = false)
    (he : step pb s e = some t) : t = s := by
  by_contra hne
  exact h t ⟨e, hcall, he, hne⟩

/-- A task can go on while the server does, unless its implementation never ends. -/
theorem AtRest.no_task (h : AtRest pb schemas s) (hlive : s.server.dangling = false) {job : Job ν}
    (hj : job ∈ s.server.jobs) {c : Call schemas}
    (hjob : job = .exec (some c.function.served) (c.request id).arguments peerId id ∨
      job = .awaiting c.function.served c.args peerId id) {ending : Ending ν}
    (hmay : c.function.MayEnd c.args ending) : False := by
  obtain ⟨i, hi⟩ := List.getElem?_of_mem hj
  -- the task has gone on, and the server is the same
  have settled {e : Rpc.Event} {server : Rpc.State ν} (he : e = .run i ∨ ∃ o, e = .finish i o)
      (hstep : Rpc.step pb.deserializeRequest (schemas.map Schema.served) s.server e = some server)
      (hsame : server = s.server) : False := by
    obtain ⟨job, -, htask⟩ := taskStep he hstep
    have := htask.work
    rw [hsame] at this
    omega
  rcases hjob with rfl | rfl
  · have : ∃ server, Rpc.step pb.deserializeRequest (schemas.map Schema.served) s.server (.run i) =
        some server := by
      simp only [Rpc.step, hi]
      split <;> exact ⟨_, rfl⟩
    obtain ⟨server, hstep⟩ := this
    have hserver := serverStep_of_live hlive hstep
    have := h.eq_of_step (e := .run i) rfl (Option.map_eq_some_iff.mpr ⟨server, hserver, rfl⟩)
    exact settled (.inl rfl) hstep (congrArg State.server this)
  · have : ∃ server, Rpc.step pb.deserializeRequest (schemas.map Schema.served) s.server
        (.finish i (c.function.outcome ending)) = some server := by
      simp only [Rpc.step, hi]
      split <;> exact ⟨_, rfl⟩
    obtain ⟨server, hstep⟩ := this
    have hserver := serverStep_of_live hlive hstep
    have hends := Function.served_ends_iff.mpr ⟨ending, hmay, rfl⟩
    have hfinish : step pb s (.finish i (c.function.outcome ending) : Event schemas) =
        some { s.serve pb server with ended := s.ended ++ [c.run peerId id ending] } := by
      simp only [step, hi, hends, if_true, hserver]
      rfl
    exact settled (.inr ⟨_, rfl⟩) hstep (congrArg State.server (h.eq_of_step rfl hfinish))

/-! ### The end of the server -/

/-- Nothing happens to the server any more: what happens happens in a client. -/
theorem step_dangling (he : step pb s e = some t) (hs : s.server.dangling = true) :
    (∃ peerId id c client, e = .call peerId id c ∧ t = { s.setClient peerId client with
        requests := s.requests ++ [c.message pb peerId id] }) ∨
      (∃ peerId data client, e = .receive peerId data ∧ (peerId, data) ∈ s.replies ∧
        t = { s.setClient peerId client with replies := s.replies.erase (peerId, data) }) ∨
      ∃ peerId i client, e = .wake peerId i ∧ i < (s.clients peerId).posted.length ∧
        t = s.setClient peerId client := by
  have gone (d : Rpc.Event) : serverStep pb schemas s.server d = none := by
    rw [serverStep, if_pos hs]
  cases e with
  | call peerId id c =>
    obtain ⟨client, -, rfl⟩ := Option.map_eq_some_iff.mp he
    exact .inl ⟨peerId, id, c, client, rfl, rfl⟩
  | arrive m =>
    obtain ⟨-, he⟩ := Option.ite_none_right_eq_some.mp he
    rw [gone] at he
    cases he
  | poll =>
    rw [step, gone] at he
    cases he
  | run i =>
    rw [step, gone] at he
    cases he
  | finish i o =>
    simp only [step] at he
    split at he
    · obtain ⟨-, he⟩ := Option.ite_none_right_eq_some.mp he
      rw [gone] at he
      cases he
    · cases he
  | receive peerId data =>
    obtain ⟨hmem, he⟩ := Option.ite_none_right_eq_some.mp he
    obtain ⟨client, -, rfl⟩ := Option.map_eq_some_iff.mp he
    exact .inr (.inl ⟨peerId, data, client, rfl, hmem, rfl⟩)
  | wake peerId i =>
    obtain ⟨client, hclient, rfl⟩ := Option.map_eq_some_iff.mp he
    refine .inr (.inr ⟨peerId, i, client, rfl, ?_, rfl⟩)
    by_contra hle
    have hnone : (s.clients peerId).posted[i]? = none := by simpa using hle
    simp [clientStep, Client.step, hnone] at hclient

theorem ended_step (he : step pb s e = some t) (hs : s.server.dangling = true) :
    t.server.dangling = true ∧ t.ended = s.ended := by
  obtain ⟨_, _, _, _, -, rfl⟩ | ⟨_, _, _, -, -, rfl⟩ | ⟨_, _, _, -, -, rfl⟩ := step_dangling he hs <;>
    exact ⟨hs, rfl⟩

/-- Once the server is gone, all is at rest when no reply is under way and no handler waits. -/
theorem atRest_of_dangling (hs : s.server.dangling = true) (hreplies : s.replies = [])
    (hposted : ∀ peerId, (s.clients peerId).posted = []) : AtRest pb schemas s := by
  rintro t ⟨e, hcall, he, -⟩
  obtain ⟨_, _, _, _, rfl, -⟩ | ⟨_, _, _, rfl, hmem, -⟩ | ⟨peerId, _, _, rfl, hlt, -⟩ := step_dangling he hs
  · cases hcall
  · rw [hreplies] at hmem
    cases hmem
  · rw [hposted peerId] at hlt
    cases hlt

theorem ended_runs (h : runs (step pb) s es = some t) (hs : s.server.dangling = true) :
    t.server.dangling = true ∧ t.ended = s.ended :=
  runs_invariant (P := fun t => t.server.dangling = true ∧ t.ended = s.ended)
    (fun _ _ _ ht he => ⟨(ended_step he ht.1).1, (ended_step he ht.1).2.trans ht.2⟩) h ⟨hs, rfl⟩

theorem Invariant.exists_stage (h : Invariant pb es s) (peerId : PeerId) (id : RequestId) :
    ∃ oc : Option (Call schemas), Stage pb peerId id oc (view pb peerId id es s) := by
  by_cases hc : ∃ c : Call schemas, .call peerId id c ∈ es
  · obtain ⟨c, hc⟩ := hc
    exact ⟨_, h.stage peerId id c hc⟩
  · exact ⟨_, h.idle peerId id fun c hm => hc ⟨c, hm⟩⟩

/-- The server comes to its end when an implementation returns a value, and only then. -/
theorem dangling_step (hinv : Invariant pb es s) (he : step pb s e = some t) :
    t.server.dangling = true ↔ s.server.dangling = true ∨ ∃ i value, e = .finish i (.returned value) := by
  have same (ht : t.server.dangling = s.server.dangling) (hne : ∀ i value, e ≠ .finish i (.returned value)) :
      t.server.dangling = true ↔
        s.server.dangling = true ∨ ∃ i value, e = .finish i (.returned value) := by
    rw [ht]
    exact (or_iff_left fun ⟨i, value, h⟩ => hne i value h).symm
  cases e with
  | call peer id c =>
    obtain ⟨client, -, rfl⟩ := Option.map_eq_some_iff.mp he
    exact same rfl (by simp)
  | arrive m =>
    obtain ⟨-, he⟩ := Option.ite_none_right_eq_some.mp he
    obtain ⟨server, hserver, rfl⟩ := Option.map_eq_some_iff.mp he
    obtain ⟨-, ⟨⟩⟩ := serverStep_eq_some.mp hserver
    exact same rfl (by simp)
  | poll =>
    obtain ⟨server, hserver, rfl⟩ := Option.map_eq_some_iff.mp he
    obtain ⟨-, ⟨⟩⟩ := serverStep_eq_some.mp hserver
    refine same ?_ (by simp)
    rw [State.serve, poll_eq]
  | run i =>
    obtain ⟨server, hserver, rfl⟩ := Option.map_eq_some_iff.mp he
    obtain ⟨-, hstep⟩ := serverStep_eq_some.mp hserver
    refine same ?_ (by simp)
    simp only [Rpc.step] at hstep
    split at hstep
    next peer reply hi =>
      -- no request is for a function that is not there
      have hj : Job.notFound peer reply ∈ (view pb peer reply.requestId es s).jobs :=
        List.mem_filter.mpr ⟨List.mem_of_getElem? hi, decide_eq_true rfl⟩
      obtain ⟨oc, hstage⟩ := hinv.exists_stage peer reply.requestId
      obtain ⟨c, -, -, ⟨⟨⟩⟩ | ⟨⟨⟩⟩⟩ := hstage.of_mem_jobs hj
    next => cases hstep; rfl
    next f args peer id hi =>
      split at hstep
      next => cases hstep; rfl
      next result hinvoke =>
        cases hstep
        obtain ⟨e, rfl⟩ := invoke_returns hinvoke
        rfl
      next => cases hstep; rfl
    next => cases hstep
  | finish i o =>
    simp only [step] at he
    split at he
    next hi =>
      obtain ⟨-, he⟩ := Option.ite_none_right_eq_some.mp he
      obtain ⟨server, hserver, rfl⟩ := Option.map_eq_some_iff.mp he
      obtain ⟨-, hstep⟩ := serverStep_eq_some.mp hserver
      simp only [Rpc.step, hi] at hstep
      cases o with
      | returned value =>
        cases hstep
        exact iff_of_true rfl (.inr ⟨i, value, rfl⟩)
      | rpcError e =>
        cases hstep
        exact same rfl (by simp)
      | exception =>
        cases hstep
        exact same rfl (by simp)
    next => cases he
  | receive peer data =>
    obtain ⟨-, he⟩ := Option.ite_none_right_eq_some.mp he
    obtain ⟨client, -, rfl⟩ := Option.map_eq_some_iff.mp he
    exact same rfl (by simp)
  | wake peer i =>
    obtain ⟨client, -, rfl⟩ := Option.map_eq_some_iff.mp he
    exact same rfl (by simp)

theorem dangling_iff (hd : Distinct schemas) (h : runs (step pb) {} es = some s) :
    s.server.dangling = true ↔ ∃ i value, .finish i (.returned value) ∈ es := by
  refine runs_induction_reachable (P := fun es s => s.server.dangling = true ↔
    ∃ i value, (.finish i (.returned value) : Event schemas) ∈ es) (by simp) ?_ h
  intro es s e t hs ih he
  rw [dangling_step (invariant_of_runs hd hs) he, ih]
  simp only [List.mem_append, List.mem_singleton, exists_or, eq_comm]

/-! ### What a call returns -/

/-- What the calls with this id of this client have come to. -/
def State.returned (s : State ν) (peerId : PeerId) (id : RequestId) (f : Function ν) :
    List (Ending ν) :=
  ((s.clients peerId).wokenWith id).map f.getReturnValue

/-- The runs of implementations for this call. -/
def State.ran (s : State ν) (peerId : PeerId) (id : RequestId) : List (Run ν) :=
  s.ended.filter fun r => (r.peerId, r.id) = (peerId, id)

/-- What a call returns is how the implementation of its function ended, which was run once for it,
on its arguments. It has not returned yet, or never does when that ended with another exception. -/
def Sound (s : State ν) (peerId : PeerId) (id : RequestId) (c : Call schemas) : Prop :=
  s.ran peerId id = [] ∧ s.returned peerId id c.function = [] ∨
    ∃ ending, c.function.MayEnd c.args ending ∧ s.ran peerId id = [c.run peerId id ending] ∧
      (s.returned peerId id c.function = [] ∨
        ending ≠ none ∧ s.returned peerId id c.function = [ending])

/-- The implementation has run for this call, and the call has returned unless it ended with another
exception. -/
def Returned (s : State ν) (peerId : PeerId) (id : RequestId) (c : Call schemas) : Prop :=
  ∃ ending, c.function.MayEnd c.args ending ∧ s.ran peerId id = [c.run peerId id ending] ∧
    s.returned peerId id c.function = if ending = none then [] else [ending]

theorem Invariant.returned_of_none (h : Invariant pb es s) (peerId : PeerId) (id : RequestId)
    (f : Function ν) (hnone : (view pb peerId id es s).received = none) : s.returned peerId id f = [] := by
  rw [State.returned, (h.kept.pending hnone).woken, List.map_nil]

theorem Invariant.returned_of_some (h : Invariant pb es s) (peerId : PeerId) (id : RequestId)
    {f : Function ν} {vals : List ν}
    {result : Except Error ν} (may : f.MayEnd vals (some result))
    (hsome : (view pb peerId id es s).received = some (f.payload result).read) :
    s.returned peerId id f = [] ∧ some id ∈ (s.clients peerId).posted ∨
      s.returned peerId id f = [some result] := by
  rcases (h.kept.replied _ hsome).woken with ⟨hone, hw⟩ | ⟨-, hw⟩
  · refine .inl ⟨by rw [State.returned, hw, List.map_nil], ?_⟩
    exact List.count_pos_iff.mp (by omega)
  · right
    rw [State.returned, hw, List.map_singleton, Function.getReturnValue_payload may]

theorem Invariant.sound {c : Call schemas} (h : Invariant pb es s)
    (hc : .call peerId id c ∈ es) : Sound s peerId id c := by
  have hstage := h.stage peerId id c hc
  have hran : s.ran peerId id = (view pb peerId id es s).ended := rfl
  have hnone := h.returned_of_none peerId id c.function
  have hsome {result : Except Error ν} (may : c.function.MayEnd c.args (some result)) :=
    h.returned_of_some peerId id may
  unfold Sound
  rw [hran]
  generalize view pb peerId id es s = v at hstage hnone hsome ⊢
  cases hstage with
  | answered may => exact .inr ⟨_, may, rfl, .inl (hnone rfl)⟩
  | received may =>
    refine .inr ⟨_, may, rfl, (hsome may rfl).imp And.left fun hr => ⟨nofun, hr⟩⟩
  | thrown may => exact .inr ⟨_, may, rfl, .inl (hnone rfl)⟩
  | _ => exact .inl ⟨rfl, hnone rfl⟩

theorem AtRest.requests_eq (h : AtRest pb schemas s) (hlive : s.server.dangling = false) :
    s.requests = [] := by
  refine List.eq_nil_iff_forall_not_mem.mpr fun m hm => ?_
  have hserver : serverStep pb schemas s.server (.deliver m) = some _ := serverStep_of_live hlive rfl
  have hstep : step pb s (.arrive m : Event schemas) = some { s with
      server := { s.server with inbox := s.server.inbox ++ [m] }, requests := s.requests.erase m } := by
    simp only [step, hm, if_true, hserver]
    rfl
  have hlength := congrArg (fun s => s.requests.length) (h.eq_of_step rfl hstep)
  have := List.length_erase_of_mem hm
  have := List.length_pos_of_mem hm
  simp only at hlength
  omega

theorem AtRest.inbox_eq (h : AtRest pb schemas s) (hlive : s.server.dangling = false) :
    s.server.inbox = [] := by
  have hserver : serverStep pb schemas s.server .poll = some _ := serverStep_of_live hlive rfl
  have := h.eq_of_step (e := .poll) rfl (Option.map_eq_some_iff.mpr ⟨_, hserver, rfl⟩)
  rw [← this]
  simp [State.serve, poll_eq]

theorem AtRest.replies_eq (h : AtRest pb schemas s) : s.replies = [] := by
  refine List.eq_nil_iff_forall_not_mem.mpr fun p hp => ?_
  have hclient : ∃ client, clientStep pb (s.clients p.1) (.receive p.2) = some client := by
    simp only [clientStep, Client.step]
    split <;> exact ⟨_, rfl⟩
  obtain ⟨client, hclient⟩ := hclient
  have hstep : step pb s (.receive p.1 p.2 : Event schemas) =
      some { s.setClient p.1 client with replies := s.replies.erase p } := by
    simp [step, hp, hclient]
  have hlength := congrArg (fun s => s.replies.length) (h.eq_of_step rfl hstep)
  have := List.length_erase_of_mem hp
  have := List.length_pos_of_mem hp
  simp only at hlength
  omega

theorem AtRest.posted_eq (h : AtRest pb schemas s) : (s.clients peerId).posted = [] := by
  by_contra hne
  have hlt := List.length_pos_of_ne_nil hne
  obtain ⟨callback, hi⟩ : ∃ callback, (s.clients peerId).posted[0]? = some callback :=
    ⟨_, List.getElem?_eq_getElem hlt⟩
  have hstep : step pb s (.wake peerId 0 : Event schemas) = some (s.setClient peerId
      ({ s.clients peerId with posted := (s.clients peerId).posted.eraseIdx 0 }.wake callback)) := by
    simp [step, clientStep, Client.step, hi]
  have hlength := congrArg (fun s => (s.clients peerId).posted.length) (h.eq_of_step rfl hstep)
  have := List.length_eraseIdx_of_lt hlt
  cases callback <;> simp [State.setClient, Client.State.wake] at hlength <;> omega

/-- At rest, a call whose implementation has run has returned. -/
theorem Invariant.returned_of_ran {c : Call schemas} (h : Invariant pb es s)
    (hrest : AtRest pb schemas s) (hc : .call peerId id c ∈ es) (hran : s.ran peerId id ≠ []) :
    Returned s peerId id c := by
  have hstage := h.stage peerId id c hc
  have heq : s.ran peerId id = (view pb peerId id es s).ended := rfl
  have hnone := h.returned_of_none peerId id c.function
  have hsome {result : Except Error ν} (may : c.function.MayEnd c.args (some result)) :=
    h.returned_of_some peerId id may
  have hreplies : (view pb peerId id es s).replies = [] := by
    rw [view, hrest.replies_eq, List.filter_nil]
  unfold Returned
  rw [heq] at hran ⊢
  generalize view pb peerId id es s = v at hstage hnone hsome hreplies hran ⊢
  cases hstage with
  | answered => cases hreplies
  | @received c result may =>
    refine ⟨_, may, rfl, ?_⟩
    rcases hsome may rfl with ⟨-, hposted⟩ | hr
    · rw [hrest.posted_eq] at hposted
      cases hposted
    · exact hr
  | thrown may => exact ⟨_, may, rfl, hnone rfl⟩
  | _ => exact absurd rfl hran

/-- While the server goes on, the implementations of all calls run. -/
theorem Invariant.ran_of_live {c : Call schemas} (h : Invariant pb es s) (hrest : AtRest pb schemas s)
    (hlive : s.server.dangling = false) (hc : .call peerId id c ∈ es)
    (hmay : ∃ ending, c.function.MayEnd c.args ending) : s.ran peerId id ≠ [] := by
  obtain ⟨ending, hmay⟩ := hmay
  have hstage := h.stage peerId id c hc
  have heq : s.ran peerId id = (view pb peerId id es s).ended := rfl
  have hrequests : (view pb peerId id es s).requests = [] := by
    rw [view, hrest.requests_eq hlive, List.filter_nil]
  have hinbox : (view pb peerId id es s).inbox = [] := by
    rw [view, hrest.inbox_eq hlive, List.filter_nil]
  have htask job (hj : job ∈ (view pb peerId id es s).jobs) : False := by
    obtain ⟨c', ⟨⟩, -, hjob⟩ := hstage.of_mem_jobs hj
    exact hrest.no_task hlive (List.mem_of_mem_filter hj) hjob hmay
  rw [heq]
  generalize view pb peerId id es s = v at hstage hrequests hinbox htask ⊢
  cases hstage with
  | requested => cases hrequests
  | arrived => cases hinbox
  | taken => exact (htask _ (List.mem_singleton_self _)).elim
  | running => exact (htask _ (List.mem_singleton_self _)).elim
  | unbound hb =>
    obtain ⟨impl, himpl, -⟩ := hmay
    rw [Option.mem_def] at himpl
    simp [Rpc.Function.bound, Function.served, himpl] at hb
  | _ => exact List.cons_ne_nil _ _

/-- When an implementation returns a value, no other one is waited for: for all calls of the run, also
those that are still to be made, the implementations have ended by then, if they can end. -/
def ReturnsLast (pb : Protobuf) (es : List (Event schemas)) : Prop :=
  ∀ before i value after t, es = before ++ .finish i (.returned value) :: after →
    runs (step pb) {} (before ++ [.finish i (.returned value)]) = some t →
    ∀ peerId id c, .call peerId id c ∈ es → (∃ ending, c.function.MayEnd c.args ending) →
      t.ran peerId id ≠ []

/-- All that is left to happen once a value is returned happens in clients. -/
theorem ended_of_returned (hd : Distinct schemas) {before after : List (Event schemas)} {value : ByteArray}
    (h : runs (step pb) {} (before ++ .finish i (.returned value) :: after) = some s) :
    ∃ t, runs (step pb) {} (before ++ [.finish i (.returned value)]) = some t ∧ t.ended = s.ended := by
  rw [List.append_cons, runs_append] at h
  obtain ⟨t, ht, hrest⟩ := h
  have hdangling := (dangling_iff hd ht).mpr ⟨i, value, List.mem_append_right _ List.mem_cons_self⟩
  exact ⟨t, ht, (ended_runs hrest hdangling).2.symm⟩

/-- **A remote call is the local call, for those calls that are served.** The functions of the server
have distinct names. Without new calls everything comes to rest; what a call returns is what its
function's implementation returned, or the `Error` it threw, on the arguments of the call; and at rest
every call has returned if, and only if, no value was returned while there was another call to serve. -/
theorem remote_eq_local_iff (hd : Distinct schemas) (h : runs (step pb) {} es = some s) :
    Acc (Next pb schemas) s ∧ (∀ peerId id c, .call peerId id c ∈ es → Sound s peerId id c) ∧
      (AtRest pb schemas s → ((∀ peerId id c, .call peerId id c ∈ es →
        (∃ ending, c.function.MayEnd c.args ending) → Returned s peerId id c) ↔ ReturnsLast pb es)) := by
  have hinv := invariant_of_runs hd h
  refine ⟨acc_next (idle_callers h), fun _ _ _ hc => hinv.sound hc, fun hrest => ⟨?_, ?_⟩⟩
  · rintro hreturned before i value after t rfl ht peerId id c hc hmay
    obtain ⟨t', ht', hended⟩ := ended_of_returned hd h
    cases ht.symm.trans ht'
    obtain ⟨ending, -, hran, -⟩ := hreturned peerId id c hc hmay
    rw [State.ran, hended, ← State.ran, hran]
    exact List.cons_ne_nil _ _
  · intro hlast peerId id c hc hmay
    refine hinv.returned_of_ran hrest hc ?_
    cases hs : s.server.dangling with
    | false => exact hinv.ran_of_live hrest hs hc hmay
    | true =>
      obtain ⟨i, value, hm⟩ := (dangling_iff hd h).mp hs
      obtain ⟨before, after, rfl⟩ := List.append_of_mem hm
      obtain ⟨t, ht, hended⟩ := ended_of_returned hd h
      rw [State.ran, ← hended]
      exact hlast before i value after t rfl ht peerId id c hc hmay

end Steps

/-! ## Two clients -/

/-- A message is its fields, each ended by a full stop, with a plus sign before every character. -/
def writeFields (fields : List String) : ByteArray :=
  ⟨String.ofList (fields.flatMap fun field => field.toList.flatMap (fun c => ['+', c]) ++ ['.'])⟩

/-- The rest of the fields, of which the first has been read up to here. -/
def readFields (field : List Char) : List Char → Option (List String)
  | [] => if field.isEmpty then some [] else none
  | '+' :: c :: rest => readFields (field ++ [c]) rest
  | '.' :: rest => (readFields [] rest).map (String.ofList field :: ·)
  | _ :: _ => none

theorem readFields_field (field cs : List Char) (rest : List Char) :
    readFields field (cs.flatMap (fun c => ['+', c]) ++ '.' :: rest) =
      (readFields [] rest).map (String.ofList (field ++ cs) :: ·) := by
  induction cs generalizing field with
  | nil => simp [readFields]
  | cons c cs ih => simpa [readFields] using ih (field ++ [c])

theorem readFields_writeFields (fields : List String) :
    readFields [] (writeFields fields).value.toList = some fields := by
  simp only [writeFields, String.toList_ofList]
  induction fields with
  | nil => rfl
  | cons field fields ih =>
    have := readFields_field [] field.toList (fields.flatMap fun field =>
      field.toList.flatMap (fun c => ['+', c]) ++ ['.'])
    simpa [ih] using this

def codes : List (Error.Code × String) :=
  [(.timeout, "0"), (.failedToSendRequest, "1"), (.functionNotFound, "2"), (.internalError, "3")]

def writePayload : Payload → List String
  | .absent => []
  | .value bytes => ["value", bytes.value]
  | .error e => ["error", ((codes.lookup e.code).getD ""), e.what]

def readPayload : List String → Option Payload
  | [] => some .absent
  | ["value", bytes] => some (.value ⟨bytes⟩)
  | ["error", code, what] =>
    ((codes.map Prod.swap).lookup code).map fun code => .error ⟨code, what⟩
  | _ => none

theorem readPayload_writePayload (payload : Payload) :
    readPayload (writePayload payload) = some payload := by
  cases payload with
  | absent => rfl
  | value bytes => rfl
  | error e => obtain ⟨code, what⟩ := e; cases code <;> rfl

/-- Messages written field by field. -/
def textFormat : Protobuf where
  serializeRequest r :=
    writeFields (r.id.value :: r.functionName :: r.nameSpace :: r.arguments.map ByteArray.value)
  deserializeRequest bytes :=
    match readFields [] bytes.value.toList with
    | some (id :: functionName :: nameSpace :: args) =>
      some ⟨⟨id⟩, functionName, nameSpace, args.map ByteArray.mk⟩
    | _ => none
  serializeReply r := writeFields (r.requestId.value :: writePayload r.payload)
  deserializeReply bytes :=
    match readFields [] bytes.value.toList with
    | some (id :: payload) => (readPayload payload).map fun payload => ⟨⟨id⟩, payload⟩
    | _ => none
  inverts_request r := by simp [readFields_writeFields, Function.comp_def]
  inverts_reply r := by simp [readFields_writeFields, readPayload_writePayload]

def text : Serializer String where
  holds _ := True
  serialize val := ⟨val⟩
  deserialize bytes := .ok bytes.value
  inverts _ := rfl

/-- `ping`: it answers any text but the empty one. -/
def ping (version : String) : Function String where
  name := "ping"
  args := [text]
  result := text
  implementation := some fun vals ending =>
    match vals, ending with
    | [""], some (.error e) => e = Error.internalError "no text"
    | [val], some (.ok answer) => val ≠ "" ∧ answer = version ++ val
    | _, _ => false
  returns _ _ := trivial

def versions : List (Schema String) := [⟨some "v1", [ping "1: "]⟩, ⟨some "v2", [ping "2: "]⟩]

def callV1 : Call versions :=
  ⟨_, _, ["hello"], List.mem_cons_self, List.mem_cons_self, .cons trivial .nil⟩

def callV2 : Call versions :=
  ⟨_, _, [""], List.mem_cons_of_mem _ List.mem_cons_self, List.mem_cons_self, .cons trivial .nil⟩

section Clients

def first : PeerId := ⟨"client 1"⟩

def second : PeerId := ⟨"client 2"⟩

def one : RequestId := ⟨"1"⟩

def noText : Error := Error.internalError "no text"

/-- Two clients call the two functions, under one id, and both requests are served, up to their
implementations. -/
def bothServed : List (Event versions) :=
  [.call first one callV1, .call second one callV2, .arrive (callV2.message textFormat second one),
    .arrive (callV1.message textFormat first one), .poll, .run 1, .run 0]

def hello : List (Event versions) :=
  [.receive first (textFormat.serializeReply ⟨one, .value ⟨"1: hello"⟩⟩), .wake first 0]

/-- The value is returned last. -/
def valueLast : List (Event versions) :=
  bothServed ++ [.finish 0 (.rpcError noText), .finish 0 (.returned ⟨"1: hello"⟩),
    .receive second (textFormat.serializeReply ⟨one, .error noText⟩), .wake second 0] ++ hello

/-- The value is returned first. -/
def valueFirst : List (Event versions) :=
  bothServed ++ [.finish 1 (.returned ⟨"1: hello"⟩)] ++ hello

/-- Nobody but the two clients has anything to do. -/
theorem posted_eq_nil {s : State String} {es : List (Event versions)} (h : runs (step textFormat) {} es = some s)
    (hcallers : callers es = [first, second]) (hfirst : (s.clients first).posted = [])
    (hsecond : (s.clients second).posted = []) (peerId : PeerId) : (s.clients peerId).posted = [] := by
  by_cases hp : peerId ∈ (callers es).toFinset
  · simp only [hcallers, List.mem_toFinset, List.mem_cons, List.not_mem_nil, or_false] at hp
    obtain rfl | rfl := hp
    · exact hfirst
    · exact hsecond
  · rw [idle_callers h peerId hp]

theorem mayEnd_callV2 : callV2.function.MayEnd callV2.args (some (.error noText)) :=
  ⟨_, rfl, rfl⟩

/-- Both calls return, with the value and with the error, so the value was returned last. -/
theorem remote_valueLast : ∃ s, runs (step textFormat) {} valueLast = some s ∧
    AtRest textFormat versions s ∧ ReturnsLast textFormat valueLast ∧
    s.returned first one callV1.function = [some (.ok "1: hello")] ∧
    s.returned second one callV2.function = [some (.error noText)] := by
  have hlocal {s : State String} (h : runs (step textFormat) {} valueLast = some s) :=
    remote_eq_local_iff (show (versions.flatMap Schema.names).Nodup by decide) h
  have hrun : runs (step textFormat) {} valueLast = some _ := rfl
  have hrest : AtRest textFormat versions _ :=
    atRest_of_dangling rfl rfl (posted_eq_nil hrun rfl rfl rfl)
  refine ⟨_, hrun, hrest, ((hlocal hrun).2.2 hrest).mp fun peerId id c hc _ => ?_, rfl, rfl⟩
  simp [valueLast, bothServed, hello] at hc
  obtain ⟨rfl, rfl, rfl⟩ | ⟨rfl, rfl, rfl⟩ := hc
  · exact ⟨some (.ok "1: hello"), ⟨_, rfl, rfl⟩, rfl, rfl⟩
  · exact ⟨_, mayEnd_callV2, rfl, rfl⟩

/-- When the value is returned first, the other call does not return: its implementation has been
called, and would have thrown, but the server is gone. -/
theorem not_returned_valueFirst : ∃ s, runs (step textFormat) {} valueFirst = some s ∧
    AtRest textFormat versions s ∧ .call second one callV2 ∈ valueFirst ∧
    callV2.function.MayEnd callV2.args (some (.error noText)) ∧ ¬ Returned s second one callV2 := by
  have hrun : runs (step textFormat) {} valueFirst = some _ := rfl
  have hrest : AtRest textFormat versions _ :=
    atRest_of_dangling rfl rfl (posted_eq_nil hrun rfl rfl rfl)
  refine ⟨_, hrun, hrest, by simp [valueFirst, bothServed], mayEnd_callV2, ?_⟩
  rintro ⟨ending, -, hran, -⟩
  exact List.cons_ne_nil _ _ hran.symm

end Clients

end EzCpp.Rpc.Remote
