import EzCpp.Rpc.RemoteService
import Mathlib.Data.List.Perm.Basic
import Mathlib.Data.List.TakeWhile

/-!
# Which replies reach their calls

A call is in danger from the moment its request is handed to the transport until its callback is
registered: a reply that `poll` takes in between posts an empty callback and erases the entry, and
the call is never woken. In every run this is the only way to lose a reply, and no reply is ever
given to another call (`delivers_iff`).
-/

namespace EzCpp.Rpc.Client

open EzCpp.Lib

/-! ## What the client promises -/

section Promise

variable (parse : ByteArray → Option Reply)

/-- The reply that an event brings for this id. -/
def replyTo (id : RequestId) : Event → Option RawReply
  | .receive data =>
    (parse data).bind fun reply =>
      if reply.requestId = id then some reply.payload.read else none
  | _ => none

/-- The first reply for this id, after the call with this id was made. -/
def firstReply (id : RequestId) (es : List Event) : Option RawReply :=
  (es.dropWhile (· ≠ .invoke id)).findSome? (replyTo parse id)

def State.wokenWith (s : State) (id : RequestId) : List RawReply :=
  (s.woken.filter fun p => p.1 = id).map Prod.snd

/-- Every call whose send succeeded was woken once, with the first reply for its id, if there was
one, and not at all otherwise; and no empty callback was called. -/
structure Delivers (es : List Event) (s : State) : Prop where
  faults : s.faults = []
  woken : ∀ id, .sendDone id true ∈ es → s.wokenWith id = (firstReply parse id es).toList

/-- No reply is taken for a call that has not registered its callback. -/
def Awaited (es : List Event) : Prop :=
  ∀ before data after reply, es = before ++ .receive data :: after → parse data = some reply →
    .invoke reply.requestId ∈ before → .register reply.requestId ∈ before

end Promise

section Delivery

variable {parse : ByteArray → Option Reply} {es : List Event} {e : Event} {s t : State}
  {id : RequestId}

theorem awaited_concat : Awaited parse (es ++ [e]) ↔ Awaited parse es ∧
    ∀ data reply, e = .receive data → parse data = some reply →
      .invoke reply.requestId ∈ es → .register reply.requestId ∈ es := by
  constructor
  · intro h
    refine ⟨fun before data after reply heq => h before data (after ++ [e]) reply ?_,
      fun data reply he => h es data [] reply ?_⟩
    · rw [heq, List.append_assoc, List.cons_append]
    · rw [he]
  · rintro ⟨h, hlast⟩ before data after reply heq
    rcases List.eq_nil_or_concat after with rfl | ⟨init, last, rfl⟩
    · obtain ⟨rfl, he⟩ := List.append_inj' heq rfl
      exact hlast data reply (List.singleton_inj.mp he)
    · have : es ++ [e] = (before ++ .receive data :: init) ++ [last] := by
        simpa using heq
      exact h before data init reply (List.append_inj' this rfl).1

/-- Calls that have all registered before the first reply arrives. -/
theorem awaited_of_registered {replies : List Event} (hes : ∀ data, .receive data ∉ es)
    (h : ∀ data reply, .receive data ∈ replies → parse data = some reply →
      .register reply.requestId ∈ es) : Awaited parse (es ++ replies) := by
  intro before data after reply heq hp _
  rcases List.append_eq_append_iff.mp heq with ⟨mid, rfl, hrest⟩ | ⟨mid, rfl, hrest⟩
  · refine List.mem_append_left _ (h data reply ?_ hp)
    rw [hrest]
    exact List.mem_append_right _ List.mem_cons_self
  · cases mid with
    | nil =>
      rw [List.append_nil] at h
      refine h data reply ?_ hp
      rw [← show Event.receive data :: after = replies from hrest]
      exact List.mem_cons_self
    | cons e mid =>
      obtain ⟨rfl, -⟩ := List.cons_eq_cons.mp hrest
      exact absurd (List.mem_append_right _ List.mem_cons_self) (hes data)

theorem dropWhile_of_not_mem (h : .invoke id ∉ es) :
    es.dropWhile (· ≠ Event.invoke id) = [] := by
  rw [List.dropWhile_eq_nil_iff]
  intro e he
  simpa using fun heq : e = .invoke id => h (heq ▸ he)

theorem firstReply_of_not_mem (h : .invoke id ∉ es) : firstReply parse id es = none := by
  rw [firstReply, dropWhile_of_not_mem h]
  rfl

theorem firstReply_concat (h : .invoke id ∈ es) :
    firstReply parse id (es ++ [e]) = (firstReply parse id es).or (replyTo parse id e) := by
  have hne : (es.dropWhile (· ≠ .invoke id)).isEmpty = false := by
    rw [List.isEmpty_eq_false_iff, ne_eq, List.dropWhile_eq_nil_iff]
    intro hall
    simpa using hall _ h
  rw [firstReply, List.dropWhile_append, hne, if_neg Bool.false_ne_true, List.findSome?_append,
    firstReply, List.findSome?_singleton]

/-- An event that is no reply for this id brings none. -/
theorem firstReply_concat_of_none (h : replyTo parse id e = none) :
    firstReply parse id (es ++ [e]) = firstReply parse id es := by
  by_cases hm : .invoke id ∈ es
  · rw [firstReply_concat hm, h, Option.or_none]
  · rw [firstReply_of_not_mem hm]
    by_cases he : e = .invoke id
    · subst he
      rw [firstReply, List.dropWhile_append, dropWhile_of_not_mem hm]
      simp [replyTo]
    · exact firstReply_of_not_mem (by simpa [hm] using Ne.symm he)

/-! ## One call -/

/-- Where a call stands that waits for its reply: its entry is in the table. -/
structure Pending (s : State) (id : RequestId) : Prop where
  query : s.queries id = (s.calls id).map fun c =>
    ⟨some id, if c.phase = .waiting then some id else none⟩
  posted : s.posted.count (some id) = 0
  woken : s.wokenWith id = []

/-- Where a call stands whose reply has come: its callback is posted, or has run. -/
structure Replied (s : State) (id : RequestId) (reply : RawReply) : Prop where
  query : s.queries id = none
  call : s.calls id = some ⟨.waiting, reply⟩
  woken : s.posted.count (some id) = 1 ∧ s.wokenWith id = [] ∨
    s.posted.count (some id) = 0 ∧ s.wokenWith id = [reply]

variable (parse) in
/-- What has happened to the call with this id, if there is one. -/
structure Kept (es : List Event) (s : State) (id : RequestId) : Prop where
  invoked : s.calls id = none ↔ .invoke id ∉ es
  registered : (∃ c, s.calls id = some c ∧ c.phase = .waiting) ↔ .register id ∈ es
  pending : firstReply parse id es = none → Pending s id
  replied : ∀ reply, firstReply parse id es = some reply → Replied s id reply

/-- What `Kept` reads of a state. -/
theorem Kept.congr (h : Kept parse es s id) (hi : .invoke id ∈ es ++ [e] ↔ .invoke id ∈ es)
    (hr : .register id ∈ es ++ [e] ↔ .register id ∈ es)
    (hf : firstReply parse id (es ++ [e]) = firstReply parse id es)
    (hc : t.calls id = s.calls id) (hq : t.queries id = s.queries id)
    (hp : t.posted.count (some id) = s.posted.count (some id))
    (hw : t.wokenWith id = s.wokenWith id) : Kept parse (es ++ [e]) t id where
  invoked := by rw [hc, hi]; exact h.invoked
  registered := by rw [hc, hr]; exact h.registered
  pending hn := by
    have := h.pending (hf ▸ hn)
    exact ⟨by rw [hq, hc]; exact this.query, by rw [hp]; exact this.posted,
      by rw [hw]; exact this.woken⟩
  replied r hn := by
    have := h.replied r (hf ▸ hn)
    exact ⟨by rw [hq]; exact this.query, by rw [hc]; exact this.call,
      by rw [hp, hw]; exact this.woken⟩

theorem Kept.initial : Kept parse [] {} id :=
  ⟨by simp, by simp, fun _ => ⟨rfl, rfl, rfl⟩, fun r h => by cases h⟩

/-- A call that is not yet waiting has no reply. -/
theorem Kept.firstReply_eq_none (h : Kept parse es s id)
    (hc : s.calls id ≠ none → ∃ c, s.calls id = some c ∧ c.phase ≠ .waiting) :
    firstReply parse id es = none := by
  cases hf : firstReply parse id es with
  | none => rfl
  | some r =>
    have hcall := (h.replied r hf).call
    obtain ⟨c, hc, hphase⟩ := hc (by rw [hcall]; nofun)
    rw [hcall] at hc
    cases hc
    exact absurd rfl hphase

/-- A step of a call that is not yet waiting: nothing but the call and its entry has changed. -/
theorem Kept.own_step (h : Kept parse es s id) (he : replyTo parse id e = none)
    (hcall : s.calls id ≠ none → ∃ c, s.calls id = some c ∧ c.phase ≠ .waiting)
    (hi : t.calls id = none ↔ .invoke id ∉ es ++ [e])
    (hr : (∃ c, t.calls id = some c ∧ c.phase = .waiting) ↔ .register id ∈ es ++ [e])
    (hquery : Pending s id → t.queries id = (t.calls id).map fun c =>
      ⟨some id, if c.phase = .waiting then some id else none⟩)
    (hp : t.posted = s.posted) (hw : t.wokenWith id = s.wokenWith id) : Kept parse (es ++ [e]) t id := by
  have hnone := h.firstReply_eq_none hcall
  have hpending := h.pending hnone
  refine ⟨hi, hr, fun _ => ⟨hquery hpending, ?_, ?_⟩, fun r hreply => ?_⟩
  · rw [hp]
    exact hpending.posted
  · rw [hw]
    exact hpending.woken
  · rw [firstReply_concat_of_none he, hnone] at hreply
    cases hreply

/-! ## Every step of every call -/

theorem kept_invoke (h : ∀ id, Kept parse es s id) (he : step parse s (.invoke id) = some t) :
    ∀ id', Kept parse (es ++ [.invoke id]) t id' := by
  intro id'
  simp only [step, Option.ite_none_right_eq_some, Option.isNone_iff_eq_none, Option.some.injEq] at he
  obtain ⟨hnew, rfl⟩ := he
  by_cases hid : id' = id
  · subst hid
    refine (h id').own_step rfl (fun hc => absurd hnew hc) ?_ ?_ (fun hp => ?_) rfl rfl
    · simp [State.invoke, State.setCall]
    · simpa [State.invoke, State.setCall, hnew] using (h id').registered
    · have hq : s.queries id' = none := by rw [hp.query, hnew]; rfl
      simp [State.invoke, State.setCall, State.setQuery, State.query, hq]
  · refine (h id').congr (by simp [hid]) (by simp) (firstReply_concat_of_none (by rfl)) ?_ ?_ rfl rfl
    · simp [State.invoke, State.setCall, State.setQuery, hid]
    · simp [State.invoke, State.setCall, State.setQuery, hid]

theorem kept_sendDone {ok : Bool} (h : ∀ id, Kept parse es s id)
    (he : step parse s (.sendDone id ok) = some t) :
    ∀ id', Kept parse (es ++ [.sendDone id ok]) t id' := by
  intro id'
  simp only [step] at he
  split at he
  next reply hcall =>
    cases he
    by_cases hid : id' = id
    · subst hid
      refine (h id').own_step rfl (fun _ => ⟨_, hcall, nofun⟩) ?_ ?_ (fun hp => ?_) rfl rfl
      · simpa [State.setCall, hcall] using (h id').invoked
      · have := (h id').registered
        cases ok <;> simpa [State.setCall, hcall] using this
      · have := hp.query
        cases ok <;> simpa [State.setCall, hcall] using this
    · refine (h id').congr (by simp) (by simp) (firstReply_concat_of_none (by rfl)) ?_ rfl rfl rfl
      simp [State.setCall, hid]
  next => cases he

theorem kept_register (h : ∀ id, Kept parse es s id)
    (he : step parse s (.register id) = some t) :
    ∀ id', Kept parse (es ++ [.register id]) t id' := by
  intro id'
  simp only [step] at he
  split at he
  next reply hcall =>
    cases he
    by_cases hid : id' = id
    · subst hid
      refine (h id').own_step rfl (fun _ => ⟨_, hcall, nofun⟩) ?_ ?_ (fun hp => ?_) rfl rfl
      · simpa [State.setCall, hcall] using (h id').invoked
      · simp [State.setCall]
      · have := hp.query
        simp [State.setCall, State.setResponseCallback, State.setQuery, State.query, this, hcall]
    · refine (h id').congr (by simp) (by simp [hid]) (firstReply_concat_of_none (by rfl)) ?_ ?_ rfl rfl
      · simp [State.setCall, State.setResponseCallback, State.setQuery, hid]
      · simp [State.setCall, State.setResponseCallback, State.setQuery, hid]
  next => cases he

/-- The table has an entry for a call until its reply comes. -/
theorem Kept.queries_eq_none_iff (h : Kept parse es s id) :
    s.queries id = none ↔ .invoke id ∉ es ∨ ∃ r, firstReply parse id es = some r := by
  constructor
  · intro hq
    cases hf : firstReply parse id es with
    | some r => exact .inr ⟨r, rfl⟩
    | none =>
      rw [(h.pending hf).query, Option.map_eq_none_iff] at hq
      exact .inl (h.invoked.mp hq)
  · rintro (hi | ⟨r, hr⟩)
    · rw [(h.pending (firstReply_of_not_mem hi)).query, h.invoked.mpr hi]
      rfl
    · exact (h.replied r hr).query

theorem replyTo_of_ne {data : ByteArray} {reply : Reply} (hp : parse data = some reply)
    (hne : id ≠ reply.requestId) : replyTo parse id (.receive data) = none := by
  simp [replyTo, hp, Ne.symm hne]

/-- A reply for which there is no entry changes nothing. -/
theorem kept_ignored {data : ByteArray} {reply : Reply} (h : ∀ id, Kept parse es s id)
    (hp : parse data = some reply) (hq : s.queries reply.requestId = none) :
    ∀ id', Kept parse (es ++ [.receive data]) s id' := by
  intro id'
  refine (h id').congr (by simp) (by simp) ?_ rfl rfl rfl rfl
  by_cases hid : id' = reply.requestId
  · subst hid
    rcases (h _).queries_eq_none_iff.mp hq with hi | ⟨r, hr⟩
    · rw [firstReply_of_not_mem hi, firstReply_of_not_mem (by simpa using hi)]
    · have hi : .invoke reply.requestId ∈ es := by
        by_contra hi
        rw [firstReply_of_not_mem hi] at hr
        cases hr
      rw [firstReply_concat hi, hr, Option.some_or]
  · exact firstReply_concat_of_none (replyTo_of_ne hp hid)

/-- What `poll` does with the first reply for a call. -/
theorem receive_first {reply : Reply} (h : Kept parse es s reply.requestId)
    (hq : s.queries reply.requestId ≠ none) : ∃ c, s.calls reply.requestId = some c ∧
      Pending s reply.requestId ∧ firstReply parse reply.requestId es = none ∧
      s.receive reply = { s with
        calls := Function.update s.calls reply.requestId (some ⟨c.phase, reply.payload.read⟩)
        queries := Function.update s.queries reply.requestId none
        posted := s.posted ++ [if c.phase = .waiting then some reply.requestId else none] } := by
  have hf : firstReply parse reply.requestId es = none := by
    cases hf : firstReply parse reply.requestId es with
    | none => rfl
    | some r => exact absurd (h.queries_eq_none_iff.mpr (.inr ⟨r, hf⟩)) hq
  have hp := h.pending hf
  cases hc : s.calls reply.requestId with
  | none =>
    rw [hp.query, hc] at hq
    exact absurd rfl hq
  | some c =>
    refine ⟨c, rfl, hp, hf, ?_⟩
    have hquery := hp.query
    rw [hc, Option.map_some] at hquery
    simp only [State.receive, hquery, State.writeReply, State.setQuery, hc, Option.map_some]

theorem kept_receive {data : ByteArray} {reply : Reply} (h : ∀ id, Kept parse es s id)
    (hp : parse data = some reply) (hi : .invoke reply.requestId ∈ es)
    (hr : .register reply.requestId ∈ es) :
    (∀ id', Kept parse (es ++ [.receive data]) (s.receive reply) id') ∧
      (s.receive reply).faults = s.faults ∧
      (none ∈ (s.receive reply).posted → none ∈ s.posted) := by
  by_cases hq : s.queries reply.requestId = none
  · have : s.receive reply = s := by simp only [State.receive, hq]
    rw [this]
    exact ⟨kept_ignored h hp hq, rfl, id⟩
  obtain ⟨c, hc, hpend, hf, heq⟩ := receive_first (h _) hq
  have hwait : c.phase = .waiting := by
    obtain ⟨c', hc', hwait⟩ := (h _).registered.mpr hr
    rw [hc] at hc'
    cases hc'
    exact hwait
  rw [heq, if_pos hwait]
  refine ⟨fun id' => ?_, rfl, by simp⟩
  by_cases hid : id' = reply.requestId
  · subst hid
    have hfirst : firstReply parse reply.requestId (es ++ [.receive data]) =
        some reply.payload.read := by
      rw [firstReply_concat hi, hf]
      simp [replyTo, hp]
    refine ⟨by simpa using hi, ?_, ?_, ?_⟩
    · simpa [hwait] using hr
    · rw [hfirst]
      nofun
    · rw [hfirst]
      rintro r ⟨⟩
      refine ⟨by simp, by simp [hwait], .inl ⟨?_, hpend.woken⟩⟩
      simp [hpend.posted]
  · refine (h id').congr (by simp) (by simp) (firstReply_concat_of_none (replyTo_of_ne hp hid)) ?_ ?_ ?_ rfl
    · simp [hid]
    · simp [hid]
    · simp [Ne.symm hid]

/-- A reply that comes before its call has registered is posted to nobody. -/
theorem lost_receive {reply : Reply} (h : ∀ id, Kept parse es s id)
    (hi : .invoke reply.requestId ∈ es) (hr : .register reply.requestId ∉ es) :
    none ∈ (s.receive reply).posted := by
  have hk := h reply.requestId
  have hq : s.queries reply.requestId ≠ none := by
    intro hq
    rcases hk.queries_eq_none_iff.mp hq with hn | ⟨r, hf⟩
    · exact hn hi
    · exact hr (hk.registered.mp ⟨_, (hk.replied r hf).call, rfl⟩)
  obtain ⟨c, hc, -, -, heq⟩ := receive_first hk hq
  have hwait : c.phase ≠ .waiting := fun hw => hr (hk.registered.mp ⟨c, hc, hw⟩)
  rw [heq, if_neg hwait]
  simp

theorem kept_run {i : Nat} (h : ∀ id, Kept parse es s id) (hn : none ∉ s.posted)
    (he : step parse s (.run i) = some t) :
    (∀ id', Kept parse (es ++ [.run i]) t id') ∧ t.faults = s.faults ∧ none ∉ t.posted := by
  obtain ⟨callback, hi, rfl⟩ := Option.map_eq_some_iff.mp he
  obtain ⟨hlt, hget⟩ := List.getElem?_eq_some_iff.mp hi
  have hperm := List.getElem_cons_eraseIdx_perm hlt
  rw [hget] at hperm
  cases callback with
  | none => exact absurd (List.mem_of_getElem? hi) hn
  | some id =>
    refine ⟨fun id' => ?_, rfl, fun hm => hn (List.mem_of_mem_eraseIdx hm)⟩
    have hcount := hperm.count_eq (some id')
    rw [List.count_cons] at hcount
    have hsame : firstReply parse id' (es ++ [.run i]) = firstReply parse id' es :=
      firstReply_concat_of_none (by rfl)
    by_cases hid : id' = id
    · subst hid
      rw [beq_self_eq_true, if_pos rfl] at hcount
      refine ⟨by simpa [State.wake] using (h id').invoked,
        by simpa [State.wake] using (h id').registered, ?_, ?_⟩
      · intro hf
        have := ((h id').pending (hsame ▸ hf)).posted
        omega
      · intro r hf
        have hr := (h id').replied r (hsame ▸ hf)
        refine ⟨hr.query, hr.call, .inr ?_⟩
        rcases hr.woken with ⟨hone, hw⟩ | ⟨hzero, -⟩
        · unfold State.wokenWith at hw
          refine ⟨show List.count (some id') (s.posted.eraseIdx i) = 0 by omega, ?_⟩
          simp [State.wokenWith, State.wake, hr.call, hw]
        · omega
    · refine (h id').congr (by simp) (by simp) hsame rfl rfl ?_ ?_
      · have : (some id == some id') = false := by simpa using Ne.symm hid
        rw [this, if_neg Bool.false_ne_true, Nat.add_zero] at hcount
        exact hcount
      · cases hc : s.calls id <;> simp [State.wokenWith, State.wake, hc, Ne.symm hid]

/-! ## Runs -/

/-- Something that is not there is or will be used. -/
def Lost (s : State) : Prop := s.faults ≠ [] ∨ none ∈ s.posted

theorem Lost.step (h : Lost s) (he : step parse s e = some t) : Lost t := by
  cases e with
  | invoke id =>
    simp only [Client.step, Option.ite_none_right_eq_some, Option.some.injEq] at he
    obtain ⟨-, rfl⟩ := he
    exact h
  | sendDone id ok =>
    simp only [Client.step] at he
    split at he <;> cases he
    exact h
  | register id =>
    simp only [Client.step] at he
    split at he <;> cases he
    exact h
  | receive data =>
    simp only [Client.step] at he
    split at he <;> cases he
    · exact h
    · unfold State.receive
      split
      · exact h
      · exact .inl (by simp)
      · exact h.imp_right (List.mem_append_left _)
  | run i =>
    obtain ⟨callback, hi, rfl⟩ := Option.map_eq_some_iff.mp he
    cases callback with
    | none => exact .inl (by simp [State.wake])
    | some id =>
      refine h.imp_right fun hn => ?_
      obtain ⟨j, hj⟩ := List.getElem?_of_mem hn
      refine List.mem_eraseIdx_iff_getElem?.mpr ⟨j, fun hij => ?_, hj⟩
      rw [hij, hi] at hj
      cases hj

/-- The steps of a call leave what is posted, and the faults. -/
theorem lost_of_call_step (he : step parse s e = some t)
    (hr : ∀ data, e ≠ .receive data) (hi : ∀ i, e ≠ .run i) : Lost t ↔ Lost s := by
  cases e with
  | invoke id =>
    simp only [Client.step, Option.ite_none_right_eq_some, Option.some.injEq] at he
    obtain ⟨-, rfl⟩ := he
    rfl
  | sendDone id ok =>
    simp only [Client.step] at he
    split at he <;> cases he
    rfl
  | register id =>
    simp only [Client.step] at he
    split at he <;> cases he
    rfl
  | receive data => exact absurd rfl (hr data)
  | run i => exact absurd rfl (hi i)

theorem kept_step (h : ∀ id, Kept parse es s id) (hs : ¬ Lost s)
    (he : step parse s e = some t)
    (ha : ∀ data reply, e = .receive data → parse data = some reply →
      .invoke reply.requestId ∈ es → .register reply.requestId ∈ es) :
    (∀ id, Kept parse (es ++ [e]) t id) ∧ ¬ Lost t := by
  have hlost := lost_of_call_step he
  cases e with
  | invoke id => exact ⟨kept_invoke h he, fun ht => hs ((hlost nofun nofun).mp ht)⟩
  | sendDone id ok => exact ⟨kept_sendDone h he, fun ht => hs ((hlost nofun nofun).mp ht)⟩
  | register id => exact ⟨kept_register h he, fun ht => hs ((hlost nofun nofun).mp ht)⟩
  | receive data =>
    simp only [step] at he
    cases hp : parse data with
    | none =>
      rw [hp] at he
      cases he
      have hn (id : RequestId) : replyTo parse id (.receive data) = none := by simp [replyTo, hp]
      exact ⟨fun id => (h id).congr (by simp) (by simp) (firstReply_concat_of_none (hn id)) rfl rfl
        rfl rfl, hs⟩
    | some reply =>
      rw [hp] at he
      cases he
      by_cases hi : .invoke reply.requestId ∈ es
      · obtain ⟨hk, hf, hn⟩ := kept_receive h hp hi (ha data reply rfl hp hi)
        exact ⟨hk, fun ht => hs (ht.imp (by rw [hf]; exact fun hne => hne) hn)⟩
      · have hq := (h reply.requestId).queries_eq_none_iff.mpr (.inl hi)
        have : s.receive reply = s := by simp only [State.receive, hq]
        rw [this]
        exact ⟨kept_ignored h hp hq, hs⟩
  | run i =>
    obtain ⟨hk, hf, hn⟩ := kept_run h (fun hn => hs (.inr hn)) he
    exact ⟨hk, fun ht => ht.elim (fun hne => hs (.inl (hf ▸ hne))) hn⟩

/-- **In every run, either every call is on its way, or a reply was taken for a call that had not
registered its callback**, and then an empty callback is posted. -/
theorem kept_or_lost (h : runs (step parse) {} es = some s) :
    Awaited parse es ∧ (∀ id, Kept parse es s id) ∧ ¬ Lost s ∨ ¬ Awaited parse es ∧ Lost s := by
  refine runs_induction (P := fun es s =>
    Awaited parse es ∧ (∀ id, Kept parse es s id) ∧ ¬ Lost s ∨ ¬ Awaited parse es ∧ Lost s) ?_ ?_ h
  · exact .inl ⟨by simp [Awaited], fun id => .initial, by simp [Lost]⟩
  intro es s e t ih he
  rw [awaited_concat]
  rcases ih with ⟨haw, hk, hs⟩ | ⟨haw, hs⟩
  · by_cases hlast : ∀ data reply, e = .receive data → parse data = some reply →
        .invoke reply.requestId ∈ es → .register reply.requestId ∈ es
    · exact .inl ⟨⟨haw, hlast⟩, kept_step hk hs he hlast⟩
    · refine .inr ⟨fun h => hlast h.2, ?_⟩
      push Not at hlast
      obtain ⟨data, reply, rfl, hp, hi, hr⟩ := hlast
      simp only [step, hp] at he
      cases he
      exact .inr (lost_receive hk hi hr)
  · exact .inr ⟨fun h => haw h.1, hs.step he⟩

/-- **No reply is lost or misdelivered, once the posted callbacks have run, exactly when no reply
is taken for a call that has not yet registered its callback.** -/
theorem delivers_iff (h : runs (step parse) {} es = some s) (hposted : s.posted = []) :
    Delivers parse es s ↔ Awaited parse es := by
  constructor
  · intro hd
    rcases kept_or_lost h with ⟨haw, -, -⟩ | ⟨-, hf | hn⟩
    · exact haw
    · exact absurd hd.faults hf
    · rw [hposted] at hn
      cases hn
  · intro haw
    rcases kept_or_lost h with ⟨-, hk, hs⟩ | ⟨hno, -⟩
    · refine ⟨by_contra fun hf => hs (.inl hf), fun id _ => ?_⟩
      cases hf : firstReply parse id es with
      | none => exact ((hk id).pending hf).woken
      | some r =>
        rcases ((hk id).replied r hf).woken with ⟨hone, -⟩ | ⟨-, hw⟩
        · rw [hposted] at hone
          cases hone
        · exact hw
    · exact absurd haw hno

end Delivery

/-! ## Two runs -/

/-- A message is the id of the request it answers. -/
def parseId (data : ByteArray) : Option Reply :=
  if data.value.isEmpty then none else some ⟨⟨data.value⟩, .value ⟨"pong"⟩⟩

/-- The reply is there before the caller has registered its callback. -/
def early : List Event :=
  [.invoke ⟨"1"⟩, .receive ⟨"1"⟩, .sendDone ⟨"1"⟩ true, .register ⟨"1"⟩, .run 0]

theorem early_lost : ∃ s, runs (step parseId) {} early = some s ∧ s.posted = [] ∧
    ¬ Delivers parseId early s := by
  refine ⟨_, rfl, rfl, fun h => ?_⟩
  cases h.faults

/-- Two calls at once. -/
def calls : List Event :=
  [.invoke ⟨"1"⟩, .invoke ⟨"2"⟩, .sendDone ⟨"2"⟩ true, .sendDone ⟨"1"⟩ true, .register ⟨"1"⟩,
    .register ⟨"2"⟩]

/-- The second call is answered, then the first one, and that one again. -/
def replies : List Event :=
  [.receive ⟨"2"⟩, .receive ⟨""⟩, .receive ⟨"1"⟩, .receive ⟨"1"⟩, .run 1, .run 0]

theorem calls_delivered : ∃ s, runs (step parseId) {} (calls ++ replies) = some s ∧
    s.posted = [] ∧ Delivers parseId (calls ++ replies) s := by
  refine ⟨_, rfl, rfl, (delivers_iff rfl rfl).mpr ?_⟩
  refine awaited_of_registered (by simp [calls]) fun data reply hm hp => ?_
  have hid : reply.requestId = ⟨data.value⟩ := by
    unfold parseId at hp
    split at hp <;> cases hp
    rfl
  obtain rfl | rfl | rfl : data = ⟨"2"⟩ ∨ data = ⟨""⟩ ∨ data = ⟨"1"⟩ := by
    simpa [replies] using hm
  · rw [hid]
    decide
  · have : parseId ⟨""⟩ = none := rfl
    rw [this] at hp
    cases hp
  · rw [hid]
    decide

end EzCpp.Rpc.Client
