import EzCpp.Rpc.RemoteService

/-!
# The table of queries

An entry is made before a request is sent and erased by the reply, and by nothing else: a call whose
send fails leaves its entry behind, with a pointer to a reply that is gone. And a call that registers
its callback after its reply has come makes a new entry, with no pointer. In every run these are the
only ways for the table to hold anything but the calls that are live (`tableLaw_iff`).
-/

namespace EzCpp.Rpc.Client

open EzCpp.Lib

/-! ## What the table promises -/

namespace State

/-- The call is over: its send has failed, or it was woken. -/
def Returned (s : State) (id : RequestId) : Prop :=
  (∃ reply, s.calls id = some ⟨.failed, reply⟩) ∨ id ∈ s.woken.map Prod.fst

/-- The call was made, and is not over. -/
def Live (s : State) (id : RequestId) : Prop := s.calls id ≠ none ∧ ¬ s.Returned id

/-- Every entry is that of a live call, and points to its reply. -/
def Holds (s : State) : Prop := ∀ id q, s.queries id = some q → s.Live id ∧ q.reply = some id

end State

variable (parse : ByteArray → Option Reply)

/-- **What the table promises in a run.** Its entries are those of live calls; a call whose send fails
leaves none, as there was none before it, and touches no other one; and no reply is written to a call
that is over. -/
structure TableLaw (es : List Event) : Prop where
  holds : Throughout (step parse) State.Holds {} es
  restored : ∀ id before during after s t, es = before ++ .invoke id :: during ++ .sendDone id false :: after →
    runs (step parse) {} before = some s →
    runs (step parse) {} (before ++ .invoke id :: during ++ [.sendDone id false]) = some t →
    t.queries id = s.queries id
  others : Along (step parse) (fun s e => ∀ id t, e = .invoke id ∨ e = .sendDone id false →
    step parse s e = some t → ∀ other ≠ id, t.queries other = s.queries other) {} es
  written : Along (step parse) (fun s e => ∀ data reply call wake, e = .receive data →
    parse data = some reply → s.queries reply.requestId = some ⟨some call, wake⟩ →
    ¬ s.Returned call) {} es

/-- A send fails only after the reply has come, and a callback is registered only before. -/
def Kind (s : State) : Event → Prop
  | .sendDone id false => s.queries id = none
  | .register id => s.queries id ≠ none
  | _ => True

/-! ## The invariant -/

/-- An entry points to the reply of its call, which is neither over nor about to be; and who is woken,
or is going to be, has registered. -/
structure Sound (s : State) : Prop where
  entry : ∀ id q, s.queries id = some q → q.reply = some id ∧ some id ∉ s.posted ∧
    id ∉ s.woken.map Prod.fst ∧ ∃ c, s.calls id = some c ∧ c.phase ≠ .failed ∧
      (q.wake = none ∨ q.wake = some id ∧ c.phase = .waiting)
  registered : ∀ id, some id ∈ s.posted ∨ id ∈ s.woken.map Prod.fst →
    ∃ c, s.calls id = some c ∧ c.phase = .waiting

section Invariant

variable {parse} {es : List Event} {e : Event} {s t : State} {id : RequestId}

theorem Sound.initial : Sound {} := ⟨nofun, by simp⟩

theorem Sound.holds (h : Sound s) : s.Holds := by
  intro id q hq
  obtain ⟨hreply, -, hwoken, c, hc, hphase, -⟩ := h.entry id q hq
  refine ⟨⟨by rw [hc]; nofun, ?_⟩, hreply⟩
  rintro (⟨reply, hfailed⟩ | hw)
  · rw [hc] at hfailed
    cases hfailed
    exact hphase rfl
  · exact hwoken hw

/-- There is no entry for a call that is not made. -/
theorem Sound.queries_eq_none (h : Sound s) (hc : s.calls id = none) : s.queries id = none := by
  by_contra hq
  obtain ⟨q, hq⟩ := Option.ne_none_iff_exists'.mp hq
  obtain ⟨-, -, -, c, hc', -⟩ := h.entry id q hq
  rw [hc] at hc'
  cases hc'

theorem sound_invoke (h : Sound s) (he : step parse s (.invoke id) = some t) : Sound t := by
  simp only [step, Option.ite_none_right_eq_some, Option.isNone_iff_eq_none, Option.some.injEq] at he
  obtain ⟨hnew, rfl⟩ := he
  have hq : s.query id = ⟨none, none⟩ := by rw [State.query, h.queries_eq_none hnew]; rfl
  have hfresh : ¬ (some id ∈ s.posted ∨ id ∈ s.woken.map Prod.fst) := fun hor => by
    obtain ⟨c, hc, -⟩ := h.registered id hor
    rw [hnew] at hc
    cases hc
  refine ⟨fun other q hother => ?_, fun other hor => ?_⟩
  · by_cases heq : other = id
    · subst heq
      simp only [State.invoke, State.setQuery, State.setCall, Function.update_self, hq,
        Option.some.injEq] at hother ⊢
      subst hother
      exact ⟨rfl, fun hp => hfresh (.inl hp), fun hw => hfresh (.inr hw), _, rfl, nofun, .inl rfl⟩
    · simp only [State.invoke, State.setQuery, State.setCall, Function.update_of_ne heq] at hother ⊢
      exact h.entry other q hother
  · obtain ⟨c, hc, hphase⟩ := h.registered other hor
    have heq : other ≠ id := by
      rintro rfl
      rw [hnew] at hc
      cases hc
    exact ⟨c, by simpa [State.invoke, State.setQuery, State.setCall, Function.update_of_ne heq] using hc,
      hphase⟩

/-- A call that goes on to another phase, where its entry agrees with that phase. -/
theorem Sound.setCall (h : Sound s) {c c' : Call} (hc : s.calls id = some c)
    (hentry : ∀ q, s.queries id = some q →
      c'.phase ≠ .failed ∧ (q.wake = none ∨ q.wake = some id ∧ c'.phase = .waiting))
    (hwaiting : c.phase = .waiting → c'.phase = .waiting) : Sound (s.setCall id c') := by
  refine ⟨fun other q hq => ?_, fun other hor => ?_⟩
  · obtain ⟨hreply, hposted, hwoken, d, hd, hphase, hwake⟩ := h.entry other q hq
    refine ⟨hreply, hposted, hwoken, ?_⟩
    by_cases heq : other = id
    · subst heq
      exact ⟨c', Function.update_self .., hentry q hq⟩
    · exact ⟨d, (Function.update_of_ne heq ..).trans hd, hphase, hwake⟩
  · obtain ⟨d, hd, hphase⟩ := h.registered other hor
    by_cases heq : other = id
    · subst heq
      rw [hc] at hd
      cases hd
      exact ⟨c', Function.update_self .., hwaiting hphase⟩
    · exact ⟨d, (Function.update_of_ne heq ..).trans hd, hphase⟩

theorem step_sendDone {ok : Bool} (he : step parse s (.sendDone id ok) = some t) :
    ∃ reply, s.calls id = some ⟨.sending, reply⟩ ∧
      t = s.setCall id ⟨if ok then .sent else .failed, reply⟩ := by
  simp only [step] at he
  split at he
  next reply hcall => exact ⟨reply, hcall, (Option.some.inj he).symm⟩
  next => cases he

theorem step_register (he : step parse s (.register id) = some t) :
    ∃ reply, s.calls id = some ⟨.sent, reply⟩ ∧
      t = (s.setResponseCallback id id).setCall id ⟨.waiting, reply⟩ := by
  simp only [step] at he
  split at he
  next reply hcall => exact ⟨reply, hcall, (Option.some.inj he).symm⟩
  next => cases he

theorem sound_sendDone {ok : Bool} (h : Sound s) (hkind : Kind s (.sendDone id ok))
    (he : step parse s (.sendDone id ok) = some t) : Sound t := by
  obtain ⟨reply, hcall, rfl⟩ := step_sendDone he
  refine h.setCall hcall (fun q hq => ?_) nofun
  obtain ⟨-, -, -, c, hc, -, hwake⟩ := h.entry id q hq
  rw [hcall] at hc
  cases hc
  cases ok with
  | false =>
    rw [show s.queries id = none from hkind] at hq
    cases hq
  | true => exact ⟨nofun, hwake.imp_right fun hw => nomatch hw.2⟩

theorem sound_register (h : Sound s) (hkind : Kind s (.register id))
    (he : step parse s (.register id) = some t) : Sound t := by
  obtain ⟨reply, hcall, rfl⟩ := step_register he
  obtain ⟨q, hq⟩ := Option.ne_none_iff_exists'.mp hkind
  obtain ⟨hreply, hposted, hwoken, -⟩ := h.entry id q hq
  have hquery : s.query id = q := by rw [State.query, hq]; rfl
  refine ⟨fun other q' hq' => ?_, fun other hor => ?_⟩
  · by_cases heq : other = id
    · subst heq
      simp only [State.setCall, State.setResponseCallback, State.setQuery, Function.update_self,
        hquery, Option.some.injEq] at hq' ⊢
      subst hq'
      exact ⟨hreply, hposted, hwoken, _, rfl, nofun, .inr ⟨rfl, rfl⟩⟩
    · simp only [State.setCall, State.setResponseCallback, State.setQuery,
        Function.update_of_ne heq] at hq' ⊢
      exact h.entry other q' hq'
  · obtain ⟨c, hc, hphase⟩ := h.registered other hor
    by_cases heq : other = id
    · subst heq
      exact ⟨_, Function.update_self .., rfl⟩
    · exact ⟨c, (Function.update_of_ne heq ..).trans hc, hphase⟩

theorem sound_receive {reply : Reply} (h : Sound s) : Sound (s.receive reply) := by
  unfold State.receive
  split
  next => exact h
  next => exact ⟨h.entry, h.registered⟩
  next call wake hq =>
    obtain ⟨hreply, hposted, hwoken, c, hc, hphase, hwake⟩ := h.entry _ _ hq
    obtain rfl : call = reply.requestId := Option.some.inj hreply
    have hcalls : ∀ other d, s.calls other = some d → ∃ d', Function.update s.calls reply.requestId
        ((s.calls reply.requestId).map fun c => { c with reply := reply.payload.read }) other =
          some d' ∧ d'.phase = d.phase := fun other d hd => by
      by_cases heq : other = reply.requestId
      · subst heq
        exact ⟨{ d with reply := reply.payload.read }, by rw [Function.update_self, hd]; rfl, rfl⟩
      · exact ⟨d, (Function.update_of_ne heq ..).trans hd, rfl⟩
    refine ⟨fun other q hother => ?_, fun other hor => ?_⟩
    · have heq : other ≠ reply.requestId := by
        rintro rfl
        simp [State.setQuery, State.writeReply] at hother
      have hq' : s.queries other = some q := by
        simpa [State.setQuery, State.writeReply, Function.update_of_ne heq] using hother
      obtain ⟨hreply', hposted', hwoken', d, hd, hphase', hwake'⟩ := h.entry other q hq'
      obtain ⟨d', hd', hsame⟩ := hcalls other d hd
      refine ⟨hreply', ?_, hwoken', d', hd', hsame ▸ hphase', hsame ▸ hwake'⟩
      have hne : some other ≠ wake := by
        rcases hwake with rfl | ⟨rfl, -⟩
        · nofun
        · exact fun he => heq (Option.some.inj he)
      simpa [hposted'] using hne
    · have hmem : (some other ∈ s.posted ∨ other ∈ s.woken.map Prod.fst) ∨ some other = wake := by
        rcases hor with hp | hw
        · exact (List.mem_append.mp hp).imp .inl List.eq_of_mem_singleton
        · exact .inl (.inr hw)
      obtain ⟨d, hd, hwaiting⟩ : ∃ d, s.calls other = some d ∧ d.phase = .waiting := by
        rcases hmem with hold | rfl
        · exact h.registered other hold
        · rcases hwake with hnone | ⟨hsome, hwaiting⟩
          · cases hnone
          · cases hsome
            exact ⟨c, hc, hwaiting⟩
      obtain ⟨d', hd', hsame⟩ := hcalls other d hd
      exact ⟨d', hd', hsame.trans hwaiting⟩

theorem sound_run {i : Nat} (h : Sound s) (he : step parse s (.run i) = some t) : Sound t := by
  simp only [step, Option.map_eq_some_iff] at he
  obtain ⟨callback, hi, rfl⟩ := he
  have hsub : ∀ other, some other ∈ s.posted.eraseIdx i → some other ∈ s.posted := fun _ hm =>
    List.mem_of_mem_eraseIdx hm
  cases callback with
  | none =>
    refine ⟨fun other q hq => ?_, fun other hor => h.registered other (hor.imp_left (hsub other))⟩
    obtain ⟨hreply, hposted, hrest⟩ := h.entry other q hq
    exact ⟨hreply, fun hm => hposted (hsub other hm), hrest⟩
  | some call =>
    have hmem : some call ∈ s.posted := List.mem_of_getElem? hi
    obtain ⟨c, hc, hphase⟩ := h.registered call (.inl hmem)
    have hwoken : ∀ other, other ∈ (s.woken ++ [(call, c.reply)]).map Prod.fst ↔
        other ∈ s.woken.map Prod.fst ∨ other = call := by simp
    have hstate : ({ s with posted := s.posted.eraseIdx i } : State).wake (some call) =
        { s with posted := s.posted.eraseIdx i, woken := s.woken ++ [(call, c.reply)] } := by
      simp [State.wake, hc]
    rw [hstate]
    refine ⟨fun other q hq => ?_, fun other hor => ?_⟩
    · obtain ⟨hreply, hposted, hw, hrest⟩ := h.entry other q hq
      refine ⟨hreply, fun hm => hposted (hsub other hm), ?_, hrest⟩
      rw [hwoken]
      rintro (hm | rfl)
      · exact hw hm
      · exact hposted hmem
    · rw [hwoken] at hor
      rcases hor with hm | hm | rfl
      · exact h.registered other (.inl (hsub other hm))
      · exact h.registered other (.inr hm)
      · exact ⟨c, hc, hphase⟩

/-- Every event taken where it may be keeps the invariant. -/
theorem sound_step (h : Sound s) (hkind : Kind s e) (he : step parse s e = some t) : Sound t := by
  cases e with
  | invoke id => exact sound_invoke h he
  | sendDone id ok => exact sound_sendDone h hkind he
  | register id => exact sound_register h hkind he
  | receive data =>
    simp only [step] at he
    split at he <;> cases he
    · exact h
    · exact sound_receive h
  | run i => exact sound_run h he

theorem sound_of_along (h : Along (step parse) Kind {} es) : Throughout (step parse) Sound {} es :=
  throughout_of_along .initial (fun _ _ _ => sound_step) h

/-! ## The law -/

/-- A call's own steps leave the entries of the others alone. -/
theorem others_of_step (h : e = .invoke id ∨ e = .sendDone id false) (he : step parse s e = some t) :
    ∀ other ≠ id, t.queries other = s.queries other := by
  intro other hne
  rcases h with rfl | rfl
  · simp only [step, Option.ite_none_right_eq_some, Option.some.injEq] at he
    obtain ⟨-, rfl⟩ := he
    exact Function.update_of_ne hne ..
  · obtain ⟨reply, -, rfl⟩ := step_sendDone he
    rfl

/-- What was not in the table before the call is not in it after its send has failed. -/
theorem restored_of_along {before during : List Event}
    (h : Along (step parse) Kind {} (before ++ .invoke id :: during ++ [.sendDone id false]))
    (hs : runs (step parse) {} before = some s)
    (ht : runs (step parse) {} (before ++ .invoke id :: during ++ [.sendDone id false]) = some t) :
    t.queries id = s.queries id := by
  obtain ⟨r, hr, he⟩ := runs_concat.mp ht
  have hgone : r.queries id = none := h.last hr
  obtain ⟨reply, -, rfl⟩ := step_sendDone he
  obtain ⟨s', hs', hinvoke⟩ := runs_append.mp hr
  cases hs.symm.trans hs'
  obtain ⟨u, hu, -⟩ := runs_cons.mp hinvoke
  have hsound : Sound s := sound_of_along h before _ s (List.append_assoc ..) hs
  simp only [step, Option.ite_none_right_eq_some, Option.isNone_iff_eq_none] at hu
  exact hgone.trans (hsound.queries_eq_none hu.1).symm

theorem tableLaw_of_along (h : Along (step parse) Kind {} es) : TableLaw parse es where
  holds before after t heq ht := (sound_of_along h before after t heq ht).holds
  restored id before during after s t heq hs ht := by
    have hinit : Along (step parse) Kind {}
        (before ++ .invoke id :: during ++ [.sendDone id false]) := by
      rw [heq, List.append_cons _ _ after] at h
      exact h.init
    exact restored_of_along hinit hs ht
  others before e after s _ _ id t hor he := others_of_step hor he
  written before e after s heq hs data reply call wake _ _ hq := by
    have hholds := (sound_of_along h before (e :: after) s heq hs).holds
    obtain ⟨hlive, hreply⟩ := hholds _ _ hq
    obtain rfl : call = reply.requestId := Option.some.inj hreply
    exact hlive.2

/-- An event taken where it may not be breaks the table. -/
theorem kind_of_holds (h : t.Holds) (he : step parse s e = some t) : Kind s e := by
  cases e with
  | sendDone id ok =>
    cases ok with
    | true => trivial
    | false =>
      obtain ⟨reply, -, rfl⟩ := step_sendDone he
      by_contra hq
      obtain ⟨q, hq⟩ := Option.ne_none_iff_exists'.mp hq
      exact (h id q hq).1.2 (.inl ⟨reply, Function.update_self ..⟩)
  | register id =>
    obtain ⟨reply, -, rfl⟩ := step_register he
    intro hq
    have hentry : ((s.setResponseCallback id id).setCall id ⟨.waiting, reply⟩).queries id =
        some ⟨none, some id⟩ := by
      simp [State.setCall, State.setResponseCallback, State.setQuery, State.query, hq]
    cases (h id _ hentry).2
  | _ => trivial

/-- **The table keeps its promises in exactly the runs where a send fails only after the reply has
come, and a callback is registered only before.** -/
theorem tableLaw_iff (h : runs (step parse) {} es = some s) :
    TableLaw parse es ↔ Along (step parse) Kind {} es := by
  refine ⟨fun hlaw before e after t heq ht => ?_, tableLaw_of_along⟩
  rw [heq] at h
  obtain ⟨t', ht', hrest⟩ := runs_append.mp h
  cases ht.symm.trans ht'
  obtain ⟨u, hu, -⟩ := runs_cons.mp hrest
  have hprefix : runs (step parse) {} (before ++ [e]) = some u := runs_concat.mpr ⟨t, ht, hu⟩
  exact kind_of_holds (hlaw.holds (before ++ [e]) after u (by rw [heq]; simp) hprefix) hu

end Invariant

/-! ## Two runs -/

/-- Replies that are named by the id alone. -/
def readId (data : ByteArray) : Option Reply := some ⟨⟨data.value⟩, .value data⟩

/-- A call that is answered, and one whose send fails after its reply has come. -/
theorem tableLaw_answered : TableLaw readId [.invoke ⟨"a"⟩, .invoke ⟨"b"⟩, .receive ⟨"b"⟩,
    .sendDone ⟨"b"⟩ false, .sendDone ⟨"a"⟩ true, .register ⟨"a"⟩, .receive ⟨"a"⟩] := by
  refine (tableLaw_iff (s := _) rfl).mpr ?_
  refine .cons trivial fun t ht => ?_
  obtain rfl := Option.some.inj ht
  refine .cons trivial fun t ht => ?_
  obtain rfl := Option.some.inj ht
  refine .cons trivial fun t ht => ?_
  obtain rfl := Option.some.inj ht
  refine .cons rfl fun t ht => ?_
  obtain rfl := Option.some.inj ht
  refine .cons trivial fun t ht => ?_
  obtain rfl := Option.some.inj ht
  refine .cons (Option.some_ne_none _) fun t ht => ?_
  obtain rfl := Option.some.inj ht
  exact .cons trivial fun _ _ => .nil

/-- The entry of a call whose send has failed stays. -/
theorem tableLaw_failedSend : ¬ TableLaw readId [.invoke ⟨"a"⟩, .sendDone ⟨"a"⟩ false] := fun h => by
  have hholds := h.holds [.invoke ⟨"a"⟩, .sendDone ⟨"a"⟩ false] [] _ rfl rfl
  exact (hholds ⟨"a"⟩ _ rfl).1.2 (.inl ⟨_, rfl⟩)

end EzCpp.Rpc.Client
