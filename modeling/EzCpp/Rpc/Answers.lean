import EzCpp.Rpc.Service

/-!
# Which requests the RPC server answers

Each message that parses as a request should lead to one reply. `poll` and `exec` go on after they
have sent an error, so the server does this exactly when no error is ever to be sent
(`answeredOnce_iff`): every request is for a function that is there and implemented, with arguments
that parse (`Served`), and every implementation returns.
-/

namespace EzCpp.Rpc

open EzCpp.Lib

section Extraction

variable {ν : Type}

/-- `extract_args` succeeds on enough arguments that all parse. -/
theorem extractArgs_eq_args_iff {parameters : List (ByteArray → Except String ν)}
    {args : List ByteArray} : (∃ vals, extractArgs parameters args = .args vals) ↔
      parameters.length ≤ args.length ∧
        ∀ p ∈ parameters.zip args, ∃ val, p.1 p.2 = .ok val := by
  induction parameters generalizing args with
  | nil => simp [extractArgs]
  | cons deserialize parameters ih =>
    cases args with
    | nil => simp [extractArgs]
    | cons arg args =>
      simp only [extractArgs, List.length_cons, Nat.add_le_add_iff_right, List.zip_cons_cons,
        List.forall_mem_cons]
      cases hd : deserialize arg with
      | error what => simp
      | ok val =>
        rw [← and_left_comm, ← ih]
        cases extractArgs parameters args <;> simp

end Extraction

section Server

variable {ν : Type} (parse : ByteArray → Option Request) (schemas : List (Schema ν))

/-- Who a request is from, and its id. -/
def Message.key? (m : Message) : Option (PeerId × RequestId) :=
  (parse m.payload).map fun r => (m.peerId, r.id)

/-- The requests that have arrived. -/
def requests (es : List Event) : List (PeerId × RequestId) :=
  es.filterMap fun
    | .deliver m => m.key? parse
    | _ => none

/-- The requests that were answered. -/
def State.answered (s : State ν) : List (PeerId × RequestId) :=
  s.sent.map fun p => (p.1, p.2.requestId)

/-- Every request had one reply, to its peer and with its id, nothing else had one, and nothing
was used that was not there. -/
structure AnsweredOnce (es : List Event) (s : State ν) : Prop where
  faults : s.faults = []
  replies : s.answered.Perm (requests parse es)

/-- A request for a function that is implemented, with enough arguments, which parse. -/
def Served (r : Request) : Prop :=
  ∃ f, findFunction schemas r.nameSpace r.functionName = some f ∧ f.bound = true ∧
    f.parameters.length ≤ r.arguments.length ∧
    ∀ p ∈ f.parameters.zip r.arguments, ∃ val, p.1 p.2 = .ok val

variable {parse schemas} {s t : State ν} {es : List Event} {e : Event} {r : Request} {m : Message}

theorem served_iff : Served schemas r ↔ ∃ f vals,
    findFunction schemas r.nameSpace r.functionName = some f ∧ f.invoke r.arguments = .awaits vals := by
  constructor
  · rintro ⟨f, hf, hb, hargs⟩
    obtain ⟨vals, hvals⟩ := extractArgs_eq_args_iff.mpr hargs
    exact ⟨f, vals, hf, by simp [Function.invoke, hvals, hb]⟩
  · rintro ⟨f, vals, hf, hi⟩
    unfold Function.invoke at hi
    split at hi
    · cases hi
    · cases hi
    next vals' hvals =>
      split at hi
      next hb => exact ⟨f, hf, hb, extractArgs_eq_args_iff.mp ⟨vals', hvals⟩⟩
      next => cases hi

/-! ## What a step does -/

theorem poll_eq : s.poll parse schemas = { s with
    inbox := []
    jobs := s.jobs ++ s.inbox.flatMap fun m =>
      ((parse m.payload).map (tasks schemas m.peerId)).getD [] } := by
  have fold (ms : List Message) (s : State ν) : ms.foldl (State.receive parse schemas) s =
      { s with jobs := s.jobs ++ ms.flatMap fun m =>
        ((parse m.payload).map (tasks schemas m.peerId)).getD [] } := by
    induction ms generalizing s with
    | nil => simp
    | cons m ms ih =>
      rw [List.foldl_cons, ih]
      unfold State.receive
      cases hm : parse m.payload <;> simp [hm]
  rw [State.poll, fold]

variable (parse schemas) in
/-- Everything an event can do. -/
inductive Moves (s : State ν) : Event → State ν → Prop
  | deliver (m : Message) : Moves s (.deliver m) { s with inbox := s.inbox ++ [m] }
  | poll : Moves s .poll (s.poll parse schemas)
  /-- the reply to a request for an unknown function is sent -/
  | notFound {i : Nat} {peerId : PeerId} {reply : Reply}
      (job : s.jobs[i]? = some (.notFound peerId reply)) :
      Moves s (.run i) { s.drop i with sent := s.sent ++ [(peerId, reply)], dangling := true }
  /-- `exec` calls the implementation -/
  | calls {i : Nat} {f : Function ν} {args : List ByteArray} {vals : List ν} {peerId : PeerId}
      {id : RequestId} (job : s.jobs[i]? = some (.exec (some f) args peerId id))
      (invoke : f.invoke args = .awaits vals) :
      Moves s (.run i) { s with jobs := s.jobs.set i (.awaiting f vals peerId id) }
  /-- `exec` cannot call it -/
  | fails {i : Nat} {f : Option (Function ν)} {args : List ByteArray} {peerId : PeerId}
      {id : RequestId} {t : State ν} (job : s.jobs[i]? = some (.exec f args peerId id))
      (invoke : ∀ g vals, f = some g → g.invoke args ≠ .awaits vals)
      (kept : s.faults <+: t.faults) (faults : t.faults ≠ []) : Moves s (.run i) t
  | returns {i : Nat} {f : Function ν} {vals : List ν} {peerId : PeerId} {id : RequestId}
      (job : s.jobs[i]? = some (.awaiting f vals peerId id)) (value : ByteArray) :
      Moves s (.finish i (.returned value))
        { s.drop i with sent := s.sent ++ [(peerId, ⟨id, .value value⟩)], dangling := true }
  | rpcError {i : Nat} {f : Function ν} {vals : List ν} {peerId : PeerId} {id : RequestId} {t : State ν}
      (job : s.jobs[i]? = some (.awaiting f vals peerId id)) (e : Error)
      (kept : s.faults <+: t.faults) (faults : t.faults ≠ []) :
      Moves s (.finish i (.rpcError e)) t
  | exception {i : Nat} {f : Function ν} {vals : List ν} {peerId : PeerId} {id : RequestId}
      (job : s.jobs[i]? = some (.awaiting f vals peerId id)) :
      Moves s (.finish i .exception) (s.drop i)

theorem invoke_returns {f : Function ν} {args : List ByteArray} {result : Except Error RawReply}
    (h : f.invoke args = .returns result) : ∃ e, result = .error e := by
  unfold Function.invoke at h
  split at h
  · cases h
  · cases h
    exact ⟨_, rfl⟩
  · split at h <;> cases h

theorem moves_of_step (h : step parse schemas s e = some t) : Moves parse schemas s e t := by
  cases e with
  | deliver m => cases h; exact .deliver m
  | poll => cases h; exact .poll
  | run i =>
    simp only [step] at h
    split at h
    next job => cases h; exact .notFound job
    next job => cases h; exact .fails job nofun (List.prefix_append _ _) (by simp [State.fault])
    next job =>
      split at h
      next invoke => cases h; exact .calls job invoke
      next invoke =>
        cases h
        obtain ⟨e, rfl⟩ := invoke_returns invoke
        refine .fails job (fun g vals hg hi => ?_) (List.prefix_append _ _) (by simp [State.reply])
        cases hg
        rw [invoke] at hi
        cases hi
      next invoke =>
        cases h
        refine .fails job (fun g vals hg hi => ?_) (List.prefix_append _ _) (by simp [State.fault])
        cases hg
        rw [invoke] at hi
        cases hi
    next => cases h
  | finish i o =>
    simp only [step] at h
    split at h
    next job =>
      cases o with
      | returned value => cases h; exact .returns job value
      | rpcError e =>
        cases h
        exact .rpcError job e (List.prefix_append _ _) (by simp [State.reply])
      | exception => cases h; exact .exception job
    next => cases h

theorem Moves.faults_grow (h : Moves parse schemas s e t) : s.faults <+: t.faults := by
  cases h with
  | poll =>
    have same : (s.poll parse schemas).faults = s.faults := by rw [poll_eq]
    exact same ▸ List.prefix_rfl
  | fails _ _ kept _ => exact kept
  | rpcError _ _ kept _ => exact kept
  | _ => exact List.prefix_rfl

/-! ## Requests that are not served -/

variable (schemas) in
/-- The task that is to answer a request. -/
def answer (m : Message) (r : Request) : Job ν :=
  .exec (findFunction schemas r.nameSpace r.functionName) r.arguments m.peerId r.id

theorem mem_eraseIdx_of_ne {i : Nat} {jobs : List (Job ν)} {job a : Job ν}
    (hi : jobs[i]? = some job) (hne : job ≠ a) (ha : a ∈ jobs) : a ∈ jobs.eraseIdx i := by
  obtain ⟨j, hj⟩ := List.getElem?_of_mem ha
  refine List.mem_eraseIdx_iff_getElem?.mpr ⟨j, fun hij => hne ?_, hj⟩
  rw [hij, hi] at hj
  exact Option.some.inj hj

theorem mem_set_of_ne {i : Nat} {jobs : List (Job ν)} {job a b : Job ν}
    (hi : jobs[i]? = some job) (hne : job ≠ a) (ha : a ∈ jobs) : a ∈ jobs.set i b := by
  have hlt : i < jobs.length := (List.getElem?_eq_some_iff.mp hi).1
  exact (List.set_perm_cons_eraseIdx hlt b).symm.subset
    (List.mem_cons_of_mem b (mem_eraseIdx_of_ne hi hne ha))

theorem served_or_pending_step (he : step parse schemas s e = some t) (ht : t.faults = [])
    (hr : parse m.payload = some r)
    (h : m ∈ s.inbox ∨ answer schemas m r ∈ s.jobs ∨ Served schemas r) :
    m ∈ t.inbox ∨ answer schemas m r ∈ t.jobs ∨ Served schemas r := by
  have dropped {i : Nat} {job : Job ν} (hi : s.jobs[i]? = some job)
      (hne : job ≠ answer schemas m r) :
      m ∈ s.inbox ∨ answer schemas m r ∈ s.jobs.eraseIdx i ∨ Served schemas r :=
    h.imp_right (Or.imp_left (mem_eraseIdx_of_ne hi hne))
  cases moves_of_step he with
  | deliver m' => exact h.imp_left (List.mem_append_left _)
  | poll =>
    rw [poll_eq]
    rcases h with h | h | h
    · refine .inr (.inl (List.mem_append_right _ (List.mem_flatMap.mpr ⟨m, h, ?_⟩)))
      simp [hr, tasks, answer]
    · exact .inr (.inl (List.mem_append_left _ h))
    · exact .inr (.inr h)
  | notFound job => exact dropped job nofun
  | @calls i f args vals peerId id job invoke =>
    by_cases heq : Job.exec (some f) args peerId id = answer schemas m r
    · simp only [answer, Job.exec.injEq] at heq
      obtain ⟨hf, rfl, -, -⟩ := heq
      exact .inr (.inr (served_iff.mpr ⟨f, vals, hf.symm, invoke⟩))
    · exact h.imp_right (Or.imp_left (mem_set_of_ne job heq))
  | fails _ _ _ faults => exact absurd ht faults
  | returns job value => exact dropped job nofun
  | rpcError _ _ _ faults => exact absurd ht faults
  | exception job => exact dropped job nofun

/-- While nothing has failed, a request that has left the pool was one to serve. -/
theorem served_or_pending (h : runs (step parse schemas) {} es = some s) (hs : s.faults = [])
    (hm : .deliver m ∈ es) (hr : parse m.payload = some r) :
    m ∈ s.inbox ∨ answer schemas m r ∈ s.jobs ∨ Served schemas r := by
  refine runs_induction (P := fun es s => s.faults = [] → .deliver m ∈ es →
    m ∈ s.inbox ∨ answer schemas m r ∈ s.jobs ∨ Served schemas r) (fun _ => nofun) ?_ h hs hm
  intro es s e t ih he ht hm
  have hs : s.faults = [] := List.prefix_nil.mp (ht ▸ (moves_of_step he).faults_grow)
  rcases List.mem_append.mp hm with hm | hm
  · exact served_or_pending_step he ht hr (ih hs hm)
  · cases List.mem_singleton.mp hm
    cases he
    exact .inl (List.mem_append_right _ List.mem_cons_self)

/-! ## Requests that are served -/

/-- Whose request a task is to answer. -/
def Job.key : Job ν → PeerId × RequestId
  | .notFound peerId reply => (peerId, reply.requestId)
  | .exec _ _ peerId id => (peerId, id)
  | .awaiting _ _ peerId id => (peerId, id)

/-- A task of a request that is served. -/
def Job.Sound : Job ν → Prop
  | .notFound _ _ => False
  | .exec f args _ _ => ∃ g vals, f = some g ∧ g.invoke args = .awaits vals
  | .awaiting _ _ _ _ => True

variable (parse) in
/-- The books of a server that has served every request so far: each is answered, lost to an
exception, in the pool or in the inbox. -/
structure Ledger (es : List Event) (s : State ν) : Prop where
  sound : ∀ job ∈ s.jobs, job.Sound
  arrived : ∀ m ∈ s.inbox, .deliver m ∈ es
  noRpcError : ∀ i e, .finish i (.rpcError e) ∉ es
  balance : ∃ lost, (lost = [] ↔ ∀ i, .finish i .exception ∉ es) ∧
    (s.answered ++ lost ++ s.jobs.map Job.key ++ s.inbox.filterMap (Message.key? parse)).Perm
      (requests parse es)

theorem map_key_drop {i : Nat} {job : Job ν} (hi : s.jobs[i]? = some job) :
    (job.key :: (s.drop i).jobs.map Job.key).Perm (s.jobs.map Job.key) := by
  obtain ⟨hlt, rfl⟩ := List.getElem?_eq_some_iff.mp hi
  exact (List.getElem_cons_eraseIdx_perm hlt).map Job.key

theorem sound_drop {i : Nat} (h : ∀ job ∈ s.jobs, job.Sound) :
    ∀ job ∈ (s.drop i).jobs, job.Sound :=
  fun job hj => h job (List.mem_of_mem_eraseIdx hj)

theorem Ledger.initial : Ledger parse [] ({} : State ν) :=
  ⟨nofun, nofun, nofun, [], by simp, .refl _⟩

theorem requests_concat : requests parse (es ++ [e]) = requests parse es ++ requests parse [e] :=
  List.filterMap_append

theorem requests_concat_of_ne (h : ∀ m, e ≠ .deliver m) :
    requests parse (es ++ [e]) = requests parse es := by
  rw [requests_concat]
  cases e with
  | deliver m => exact absurd rfl (h m)
  | _ => exact List.append_nil _

/-- A task with this key is over, and its key is put on one of the other books. -/
theorem perm_move {α : Type} [DecidableEq α] {k : α} {sent lost jobs jobs' inbox all : List α}
    (h : (sent ++ lost ++ jobs ++ inbox).Perm all) (hk : (k :: jobs').Perm jobs) :
    (sent ++ [k] ++ lost ++ jobs' ++ inbox).Perm all ∧
      (sent ++ (lost ++ [k]) ++ jobs' ++ inbox).Perm all := by
  simp only [List.perm_iff_count, List.count_append, List.count_cons, List.count_nil] at h hk ⊢
  constructor <;> intro a <;> specialize h a <;> specialize hk a <;> omega

/-- The tasks of served requests. -/
theorem polled_served {ms : List Message}
    (h : ∀ m ∈ ms, ∀ r, parse m.payload = some r → Served schemas r) :
    (∀ job ∈ ms.flatMap fun m => ((parse m.payload).map (tasks schemas m.peerId)).getD [],
      job.Sound) ∧
    (ms.flatMap fun m => ((parse m.payload).map (tasks schemas m.peerId)).getD []).map Job.key =
      ms.filterMap (Message.key? parse) := by
  induction ms with
  | nil => exact ⟨nofun, rfl⟩
  | cons m ms ih =>
    obtain ⟨hsound, hkeys⟩ := ih fun m hm => h m (List.mem_cons_of_mem _ hm)
    rw [List.flatMap_cons, List.map_append, hkeys]
    cases hr : parse m.payload with
    | none =>
      refine ⟨by simpa using hsound, ?_⟩
      rw [List.filterMap_cons_none (by simp [Message.key?, hr])]
      rfl
    | some r =>
      obtain ⟨f, vals, hf, hi⟩ := served_iff.mp (h m List.mem_cons_self r hr)
      rw [List.filterMap_cons_some (b := (m.peerId, r.id)) (by simp [Message.key?, hr])]
      refine ⟨fun job hj => ?_, by simp [tasks, hf, Job.key]⟩
      rcases List.mem_append.mp hj with hj | hj
      · have : job = .exec (some f) r.arguments m.peerId r.id := by simpa [tasks, hf] using hj
        rw [this]
        exact ⟨f, vals, rfl, hi⟩
      · exact hsound job hj

theorem Ledger.step (h : Ledger parse es s) (he : step parse schemas s e = some t)
    (ht : t.faults = [])
    (hserved : ∀ m r, .deliver m ∈ es → parse m.payload = some r → Served schemas r) :
    Ledger parse (es ++ [e]) t := by
  obtain ⟨lost, hlost, hbal⟩ := h.balance
  have arrived : ∀ m ∈ s.inbox, .deliver m ∈ es ++ [e] :=
    fun m hm => List.mem_append_left _ (h.arrived m hm)
  cases moves_of_step he with
  | deliver m =>
    refine ⟨h.sound, fun m' hm => ?_, by simpa using h.noRpcError, lost, by simpa using hlost, ?_⟩
    · rcases List.mem_append.mp hm with hm | hm
      · exact arrived m' hm
      · exact List.mem_append_right _ (by simpa using hm)
    · rw [requests_concat]
      simp only [List.filterMap_append, ← List.append_assoc]
      exact hbal.append (.refl _)
  | poll =>
    rw [poll_eq]
    obtain ⟨hsound, hkeys⟩ := polled_served fun m hm r => hserved m r (h.arrived m hm)
    refine ⟨fun job hj => ?_, nofun, by simpa using h.noRpcError, lost, by simpa using hlost, ?_⟩
    · exact (List.mem_append.mp hj).elim (h.sound job) (hsound job)
    · rw [requests_concat_of_ne (by simp), List.map_append, hkeys]
      simpa [State.answered] using hbal
  | notFound job => exact (h.sound _ (List.mem_of_getElem? job)).elim
  | @calls i f args vals peerId id job invoke =>
    refine ⟨fun j hj => ?_, arrived, by simpa using h.noRpcError, lost, by simpa using hlost, ?_⟩
    · rcases List.mem_or_eq_of_mem_set hj with hj | rfl
      · exact h.sound j hj
      · trivial
    · have hkey : (s.jobs.set i (.awaiting f vals peerId id)).map Job.key = s.jobs.map Job.key := by
        obtain ⟨hlt, hi⟩ := List.getElem?_eq_some_iff.mp job
        have hlt' : i < (s.jobs.map Job.key).length := by simpa using hlt
        have hk : (peerId, id) = (s.jobs.map Job.key)[i] := by simp [hi, Job.key]
        rw [List.map_set, Job.key, hk, List.set_getElem_self]
      rw [requests_concat_of_ne (by simp), hkey]
      exact hbal
  | fails job invoke _ _ =>
    obtain ⟨g, vals, hg, hi⟩ := h.sound _ (List.mem_of_getElem? job)
    exact absurd hi (invoke g vals hg)
  | returns job value =>
    refine ⟨sound_drop h.sound, arrived, by simpa using h.noRpcError, lost, by simpa using hlost, ?_⟩
    rw [requests_concat_of_ne (by simp), State.answered, List.map_append]
    exact (perm_move hbal (map_key_drop job)).1
  | rpcError _ _ _ faults => exact absurd ht faults
  | @exception i f vals peerId id job =>
    refine ⟨sound_drop h.sound, arrived, by simpa using h.noRpcError, lost ++ [(peerId, id)], ?_, ?_⟩
    · simp only [List.append_eq_nil_iff, List.cons_ne_nil, and_false, false_iff]
      exact fun hno => hno i (by simp)
    · rw [requests_concat_of_ne (by simp)]
      exact (perm_move hbal (map_key_drop job)).2

/-- **A server that serves every request keeps its books**, until an implementation throws an
`Error`. -/
theorem ledger (h : runs (step parse schemas) {} es = some s)
    (hserved : ∀ m r, .deliver m ∈ es → parse m.payload = some r → Served schemas r) :
    (s.faults = [] → Ledger parse es s) ∧
      (s.faults ≠ [] → ∃ i e, .finish i (.rpcError e) ∈ es) := by
  refine runs_induction (P := fun es s =>
    (∀ m r, .deliver m ∈ es → parse m.payload = some r → Served schemas r) →
      (s.faults = [] → Ledger parse es s) ∧ (s.faults ≠ [] → ∃ i e, .finish i (.rpcError e) ∈ es))
    (fun _ => ⟨fun _ => .initial, fun hne => absurd rfl hne⟩) ?_ h hserved
  intro es s e t ih he hserved
  have hbefore m r (hm : .deliver m ∈ es) := hserved m r (List.mem_append_left _ hm)
  obtain ⟨hledger, herror⟩ := ih hbefore
  have hmoves := moves_of_step he
  refine ⟨fun ht => ?_, fun ht => ?_⟩
  · exact (hledger (List.prefix_nil.mp (ht ▸ hmoves.faults_grow))).step he ht hbefore
  · by_cases hs : s.faults = []
    · cases hmoves with
      | poll => rw [poll_eq] at ht; exact absurd hs ht
      | fails job invoke _ _ =>
        obtain ⟨g, vals, hg, hi⟩ := (hledger hs).sound _ (List.mem_of_getElem? job)
        exact absurd hi (invoke g vals hg)
      | @rpcError i _ _ _ _ _ _ e _ _ => exact ⟨i, e, List.mem_append_right _ List.mem_cons_self⟩
      | _ => exact absurd hs ht
    · obtain ⟨i, e, hi⟩ := herror hs
      exact ⟨i, e, List.mem_append_left _ hi⟩

/-- **The server answers every request exactly once**, when its tasks have all run, exactly when
every request was one to serve and every implementation returned. -/
theorem answeredOnce_iff (h : runs (step parse schemas) {} es = some s) (hinbox : s.inbox = [])
    (hjobs : s.jobs = []) : AnsweredOnce parse es s ↔
      (∀ m r, .deliver m ∈ es → parse m.payload = some r → Served schemas r) ∧
        ∀ i o, .finish i o ∈ es → ∃ value, o = .returned value := by
  have hbooks
      (hserved : ∀ m r, .deliver m ∈ es → parse m.payload = some r → Served schemas r)
      (hs : s.faults = []) : ∃ lost, (lost = [] ↔ ∀ i, .finish i .exception ∉ es) ∧
        (s.answered ++ lost).Perm (requests parse es) := by
    obtain ⟨lost, hlost, hbal⟩ := ((ledger h hserved).1 hs).balance
    exact ⟨lost, hlost, by simpa [hinbox, hjobs] using hbal⟩
  constructor
  · rintro ⟨hs, hreplies⟩
    have hserved : ∀ m r, .deliver m ∈ es → parse m.payload = some r → Served schemas r := by
      intro m r hm hr
      have := served_or_pending h hs hm hr
      simpa [hinbox, hjobs] using this
    refine ⟨hserved, fun i o hi => ?_⟩
    obtain ⟨lost, hlost, hbal⟩ := hbooks hserved hs
    cases o with
    | returned value => exact ⟨value, rfl⟩
    | rpcError e => exact absurd hi (((ledger h hserved).1 hs).noRpcError i e)
    | exception =>
      have hlen := hbal.length_eq.trans hreplies.length_eq.symm
      rw [List.length_append] at hlen
      have : lost = [] := List.eq_nil_of_length_eq_zero (by omega)
      exact absurd hi (hlost.mp this i)
  · rintro ⟨hserved, hreturn⟩
    have hs : s.faults = [] := by
      by_contra hne
      obtain ⟨i, e, hi⟩ := (ledger h hserved).2 hne
      obtain ⟨value, hv⟩ := hreturn i _ hi
      cases hv
    obtain ⟨lost, hlost, hbal⟩ := hbooks hserved hs
    have hnil : lost = [] := hlost.mpr fun i hi => by
      obtain ⟨value, hv⟩ := hreturn i _ hi
      cases hv
    exact ⟨hs, by simpa [hnil] using hbal⟩

end Server

/-! ## A server with one function -/

/-- `ping` in the namespace `v2`: one argument, any text. -/
def pingSchema : Schema String where
  nameSpace := some "v2"
  functions := [⟨"ping", [fun arg => .ok arg.value], some fun _ _ => true⟩]

/-- A request whose payload is the name of the function; its argument is fixed. -/
def parseName (payload : ByteArray) : Option Request :=
  if payload.value.isEmpty then none
  else some ⟨⟨"1"⟩, payload.value, "v2", [⟨"hello"⟩]⟩

/-- A request for `pong`, which is not in the schema, and the two tasks it leads to. -/
def unknownFunction : List Event :=
  [.deliver ⟨⟨"client 1"⟩, ⟨"pong"⟩⟩, .poll, .run 0, .run 0]

/-- The reply is sent, and then a null function is called. -/
theorem unknownFunction_faults : ∃ s, runs (step parseName [pingSchema]) {} unknownFunction = some s ∧
    s.inbox = [] ∧ s.jobs = [] ∧ ¬ AnsweredOnce parseName unknownFunction s := by
  refine ⟨_, rfl, rfl, rfl, fun h => ?_⟩
  cases h.faults

/-- A malformed message, and a request for `ping`. -/
def ping : List Event :=
  [.deliver ⟨⟨"client 2"⟩, ⟨""⟩⟩, .deliver ⟨⟨"client 1"⟩, ⟨"ping"⟩⟩, .poll, .run 0,
    .finish 0 (.returned ⟨"pong 2 hello"⟩)]

theorem ping_answered : ∃ s, runs (step parseName [pingSchema]) {} ping = some s ∧
    s.inbox = [] ∧ s.jobs = [] ∧ AnsweredOnce parseName ping s := by
  have hrun : runs (step parseName [pingSchema]) {} ping =
      some { sent := [(⟨"client 1"⟩, ⟨⟨"1"⟩, .value ⟨"pong 2 hello"⟩⟩)], dangling := true } := rfl
  refine ⟨_, hrun, rfl, rfl, (answeredOnce_iff hrun rfl rfl).mpr ⟨fun m r hm hr => ?_, ?_⟩⟩
  · obtain rfl | rfl : m = ⟨⟨"client 2"⟩, ⟨""⟩⟩ ∨ m = ⟨⟨"client 1"⟩, ⟨"ping"⟩⟩ := by
      simpa [ping] using hm
    · have : parseName ⟨""⟩ = none := rfl
      rw [this] at hr
      cases hr
    · have : parseName ⟨"ping"⟩ = some ⟨⟨"1"⟩, "ping", "v2", [⟨"hello"⟩]⟩ := rfl
      rw [this] at hr
      cases hr
      exact ⟨_, rfl, rfl, by decide, by simp⟩
  · intro i o hi
    have : i = 0 ∧ o = .returned ⟨"pong 2 hello"⟩ := by simpa [ping] using hi
    exact ⟨_, this.2⟩

end EzCpp.Rpc
