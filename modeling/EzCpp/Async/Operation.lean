import EzCpp.Async.WhenAny

/-!
# Operations

`cancel()` answers by a flag that it shares with the completion lambda. The lambda sets the flag when
the coroutine it resumes has come back, and nobody reads it before resuming. So `cancel()` is right
while the timer waits, or once the flag is set, and at no other time (`cancellation_iff`). `race` goes on
inside the lambda of its winner: every call of `cancel()` there answers true, the winner's too.

The operation is a delay, awaited at most once. A timer that is cancelled calls its handler with an
error, unless the handler is queued already. How long the coroutines live that wait for the operations
of a `race` is left out.
-/

namespace EzCpp.Async

open EzCpp.Lib

namespace Operation

inductive Phase
  /-- the delay has no timer -/
  | initial
  /-- `await_ready` has made it -/
  | started
  /-- `async_wait` -/
  | waiting
  /-- the handler is queued, without an error -/
  | expired
  /-- the handler is queued, with one -/
  | aborted
  /-- the handler is inside `safe_resume` -/
  | resuming
  | finished
deriving DecidableEq, Repr

structure State where
  phase : Phase := .initial
  /-- what `m_done` shares -/
  done : Bool := false
  /-- how often the awaiting coroutine was resumed -/
  resumed : Nat := 0
  /-- what `cancel()` has returned, call by call -/
  answers : List Bool := []
  /-- how often a timer was cancelled that is not there -/
  faults : Nat := 0
deriving DecidableEq, Repr

inductive Event
  | awaitReady
  | awaitSuspend
  /-- the timer expires, and its handler is queued -/
  | expire
  /-- the handler runs, up to where it has resumed the coroutine -/
  | run
  /-- the handler returns -/
  | finish
  | cancel
deriving DecidableEq, Repr

namespace State

/-- `Delay::cancel` -/
def cancelTimer (s : State) : State :=
  match s.phase with
  | .initial => { s with faults := s.faults + 1 }
  | .waiting => { s with phase := .aborted }
  | _ => s

def cancel (s : State) : State × Bool :=
  if s.done then (s, false) else ({ s.cancelTimer with done := true }, true)

/-- A call of `cancel()`. -/
def call (s : State) : State := { s.cancel.1 with answers := s.answers ++ [s.cancel.2] }

end State

def step (s : State) : Event → Option State
  | .awaitReady => if s.phase = .initial then some { s with phase := .started } else none
  | .awaitSuspend => if s.phase = .started then some { s with phase := .waiting } else none
  | .expire => if s.phase = .waiting then some { s with phase := .expired } else none
  | .run =>
    match s.phase with
    | .expired => some { s with phase := .resuming, resumed := s.resumed + 1 }
    | .aborted => some { s with phase := .finished }
    | _ => none
  | .finish => if s.phase = .resuming then some { s with phase := .finished, done := true } else none
  | .cancel => some s.call

/-- **Cancellation and completion exclude each other, in a run.** -/
structure Excludes (es : List Event) : Prop where
  safe : Throughout step (fun s => s.faults = 0) {} es
  /-- What is cancelled was not resumed, and is not in any run that goes on from there. -/
  never : Along step (fun s e => e = .cancel → s.cancel.2 = true →
    ∀ ds t, runs step s (.cancel :: ds) = some t → t.resumed = 0) {} es
  once : Throughout step (fun s => s.answers.count true ≤ 1) {} es
  late : Along step (fun s e => e = .cancel → s.resumed ≠ 0 → s.cancel.2 = false) {} es

/-- An operation is cancelled while its timer waits, or once the flag is set. -/
def Kind (s : State) : Event → Prop
  | .cancel => s.done = true ∨ s.phase = .waiting
  | _ => True

section Law

variable {s t : State} {e : Event} {es : List Event}

theorem cancel_of_done (h : s.done = true) : s.cancel = (s, false) := if_pos h

theorem cancel_of_not_done (h : s.done = false) :
    s.cancel = ({ s.cancelTimer with done := true }, true) := if_neg (h ▸ Bool.false_ne_true)

theorem cancelTimer_waiting (h : s.phase = .waiting) :
    s.cancelTimer = { s with phase := .aborted } := by
  rw [State.cancelTimer, h]

@[simp] theorem resumed_cancelTimer : s.cancelTimer.resumed = s.resumed := by
  unfold State.cancelTimer
  split <;> rfl

@[simp] theorem resumed_cancel : s.cancel.1.resumed = s.resumed := by
  unfold State.cancel
  split
  · rfl
  · exact resumed_cancelTimer

@[simp] theorem done_cancel : s.cancel.1.done = true := by
  unfold State.cancel
  split
  next h => exact h
  next => rfl

/-- A cancelled operation goes from waiting to aborted, or stays where it is. -/
theorem phase_cancel : s.cancel.1.phase = s.phase ∨
    s.phase = .waiting ∧ s.cancel.1.phase = .aborted := by
  unfold State.cancel State.cancelTimer
  split
  · exact .inl rfl
  · split
    next h => exact .inl rfl
    next h => exact .inr ⟨h, rfl⟩
    next => exact .inl rfl

/-- Everything an event can do. -/
theorem step_cases (h : step s e = some t) :
    (e = .awaitReady ∧ s.phase = .initial ∧ t = { s with phase := .started }) ∨
    (e = .awaitSuspend ∧ s.phase = .started ∧ t = { s with phase := .waiting }) ∨
    (e = .expire ∧ s.phase = .waiting ∧ t = { s with phase := .expired }) ∨
    (e = .run ∧ s.phase = .expired ∧
      t = { s with phase := .resuming, resumed := s.resumed + 1 }) ∨
    (e = .run ∧ s.phase = .aborted ∧ t = { s with phase := .finished }) ∨
    (e = .finish ∧ s.phase = .resuming ∧ t = { s with phase := .finished, done := true }) ∨
    (e = .cancel ∧ t = s.call) := by
  cases e with
  | awaitReady =>
    simp only [step, Option.ite_none_right_eq_some, Option.some.injEq] at h
    exact .inl ⟨rfl, h.1, h.2.symm⟩
  | awaitSuspend =>
    simp only [step, Option.ite_none_right_eq_some, Option.some.injEq] at h
    exact .inr (.inl ⟨rfl, h.1, h.2.symm⟩)
  | expire =>
    simp only [step, Option.ite_none_right_eq_some, Option.some.injEq] at h
    exact .inr (.inr (.inl ⟨rfl, h.1, h.2.symm⟩))
  | run =>
    simp only [step] at h
    split at h
    next hphase => exact .inr (.inr (.inr (.inl ⟨rfl, hphase, (Option.some.inj h).symm⟩)))
    next hphase => exact .inr (.inr (.inr (.inr (.inl ⟨rfl, hphase, (Option.some.inj h).symm⟩))))
    next => cases h
  | finish =>
    simp only [step, Option.ite_none_right_eq_some, Option.some.injEq] at h
    exact .inr (.inr (.inr (.inr (.inr (.inl ⟨rfl, h.1, h.2.symm⟩)))))
  | cancel =>
    exact .inr (.inr (.inr (.inr (.inr (.inr ⟨rfl, (Option.some.inj h).symm⟩)))))

/-! ## In every run -/

/-- What the phase says of an operation, and the flag of the answers. -/
structure Tracks (s : State) : Prop where
  resumed : s.resumed = 0 ∨ s.phase = .resuming ∨ s.phase = .finished
  resuming : s.phase = .resuming → s.resumed ≠ 0
  done : s.phase = .aborted ∨ s.phase = .finished → s.done = true
  answers : s.answers.count true = 0 ∨ s.done = true ∧ s.answers.count true = 1

theorem tracks_initial : Tracks {} := ⟨.inl rfl, nofun, by decide, .inl rfl⟩

theorem tracks_call (h : Tracks s) : Tracks s.call := by
  have hphase : s.call.phase = s.cancel.1.phase := rfl
  refine ⟨?_, fun hresuming => ?_, fun _ => done_cancel, ?_⟩
  · rcases phase_cancel (s := s) with hp | ⟨hw, -⟩
    · rw [hphase, hp]
      exact h.resumed.imp_left resumed_cancel.trans
    · refine .inl (resumed_cancel.trans (h.resumed.resolve_right ?_))
      rw [hw]
      nofun
  · rw [hphase] at hresuming
    rcases phase_cancel (s := s) with hp | ⟨-, hp⟩
    · exact resumed_cancel (s := s) ▸ h.resuming (hp ▸ hresuming)
    · rw [hp] at hresuming
      cases hresuming
  · show (s.answers ++ [s.cancel.2]).count true = 0 ∨
      s.cancel.1.done = true ∧ (s.answers ++ [s.cancel.2]).count true = 1
    cases hdone : s.done with
    | true =>
      simp only [cancel_of_done hdone, List.count_append]
      exact h.answers
    | false =>
      have hzero := h.answers.resolve_right fun hor => nomatch hdone.symm.trans hor.1
      refine .inr ⟨done_cancel, ?_⟩
      rw [cancel_of_not_done hdone, List.count_append, hzero]
      rfl

theorem tracks_step (h : Tracks s) (he : step s e = some t) : Tracks t := by
  rcases step_cases he with ⟨-, hp, rfl⟩ | ⟨-, hp, rfl⟩ | ⟨-, hp, rfl⟩ | ⟨-, hp, rfl⟩ | ⟨-, hp, rfl⟩ |
    ⟨-, hp, rfl⟩ | ⟨-, rfl⟩
  · exact ⟨.inl (h.resumed.resolve_right (by rw [hp]; nofun)), nofun, nofun, h.answers⟩
  · exact ⟨.inl (h.resumed.resolve_right (by rw [hp]; nofun)), nofun, nofun, h.answers⟩
  · exact ⟨.inl (h.resumed.resolve_right (by rw [hp]; nofun)), nofun, nofun, h.answers⟩
  · exact ⟨.inr (.inl rfl), fun _ => Nat.succ_ne_zero _, nofun, h.answers⟩
  · exact ⟨.inr (.inr rfl), nofun, fun _ => h.done (.inl hp), h.answers⟩
  · exact ⟨.inr (.inr rfl), nofun, fun _ => rfl, h.answers.imp_right fun hor => ⟨rfl, hor.2⟩⟩
  · exact tracks_call h

theorem tracks (h : runs step {} es = some t) : Tracks t :=
  runs_invariant (fun _ _ _ => tracks_step) h tracks_initial

/-- What is aborted is not resumed any more. -/
theorem resumed_of_aborted (h : runs step s es = some t) (hp : s.phase = .aborted) :
    t.resumed = s.resumed := by
  refine (runs_invariant (P := fun u => (u.phase = .aborted ∨ u.phase = .finished) ∧
    u.resumed = s.resumed) (fun u e v hu he => ?_) h ⟨.inl hp, rfl⟩).2
  obtain ⟨hphase, hresumed⟩ := hu
  rcases step_cases he with ⟨-, hp, -⟩ | ⟨-, hp, -⟩ | ⟨-, hp, -⟩ | ⟨-, hp, -⟩ | ⟨-, hp, rfl⟩ |
    ⟨-, hp, -⟩ | ⟨-, rfl⟩
  · exact absurd hphase (by rw [hp]; nofun)
  · exact absurd hphase (by rw [hp]; nofun)
  · exact absurd hphase (by rw [hp]; nofun)
  · exact absurd hphase (by rw [hp]; nofun)
  · exact ⟨.inr rfl, hresumed⟩
  · exact absurd hphase (by rw [hp]; nofun)
  · refine ⟨?_, resumed_cancel.trans hresumed⟩
    show u.cancel.1.phase = .aborted ∨ u.cancel.1.phase = .finished
    rcases phase_cancel (s := u) with hkept | ⟨-, hkept⟩
    · rw [hkept]
      exact hphase
    · exact .inl hkept

/-! ## Where operations are cancelled as they may be -/

theorem faults_step (hkind : Kind s e) (he : step s e = some t) : t.faults = s.faults := by
  rcases step_cases he with ⟨-, -, rfl⟩ | ⟨-, -, rfl⟩ | ⟨-, -, rfl⟩ | ⟨-, -, rfl⟩ | ⟨-, -, rfl⟩ |
    ⟨-, -, rfl⟩ | ⟨rfl, rfl⟩
  iterate 6 rfl
  show s.cancel.1.faults = s.faults
  cases hdone : s.done with
  | true => rw [cancel_of_done hdone]
  | false =>
    have hwaiting : s.phase = .waiting := hkind.resolve_left (hdone ▸ Bool.false_ne_true)
    rw [cancel_of_not_done hdone, cancelTimer_waiting hwaiting]

/-- What is cancelled as it may be is not resumed any more. -/
theorem Tracks.never (h : Tracks s) (hkind : Kind s .cancel) (hanswer : s.cancel.2 = true)
    (hr : runs step s (.cancel :: es) = some t) : t.resumed = 0 := by
  have hdone : s.done = false := by
    by_contra hdone
    rw [cancel_of_done (Bool.not_eq_false _ ▸ hdone)] at hanswer
    cases hanswer
  have hwaiting : s.phase = .waiting := hkind.resolve_left (hdone ▸ Bool.false_ne_true)
  have hzero : s.resumed = 0 := h.resumed.resolve_right (by rw [hwaiting]; nofun)
  obtain ⟨u, hu, hr⟩ := runs_cons.mp hr
  cases hu
  have haborted : s.call.phase = .aborted := by
    show s.cancel.1.phase = .aborted
    rw [cancel_of_not_done hdone, cancelTimer_waiting hwaiting]
  exact (resumed_of_aborted hr haborted).trans (resumed_cancel.trans hzero)

theorem excludes_of_along (h : Along step Kind {} es) : Excludes es where
  safe := throughout_of_along rfl (fun _ _ _ hs hkind he => (faults_step hkind he).trans hs) h
  never before e after s heq hs hcancel hanswer ds t hr := by
    subst hcancel
    exact (tracks hs).never (h before _ after s heq hs) hanswer hr
  once before after s _ hs := by
    rcases (tracks hs).answers with hzero | ⟨-, hone⟩
    · exact hzero ▸ Nat.zero_le 1
    · exact Nat.le_of_eq hone
  late before e after s heq hs hcancel hne := by
    subst hcancel
    rcases h before _ after s heq hs with hdone | hwaiting
    · rw [cancel_of_done hdone]
    · exact absurd ((tracks hs).resumed.resolve_right (by rw [hwaiting]; nofun)) hne

theorem phase_call (h : s.phase ≠ .waiting) : s.call.phase = s.phase :=
  phase_cancel.resolve_right fun hw => h hw.1

theorem runs_expired (h : s.phase = .expired) :
    runs step s [.run] = some { s with phase := .resuming, resumed := s.resumed + 1 } := by
  simp [runs, step, h]

theorem runs_started (h : s.phase = .started) : runs step s [.awaitSuspend, .expire, .run] =
    some { s with phase := .resuming, resumed := s.resumed + 1 } := by
  simp [runs, step, h]

/-- **In a run, cancellation and completion exclude each other exactly if every call of `cancel()`
comes while the timer waits, or once the flag is set.** -/
theorem excludes_iff : Excludes es ↔ Along step Kind {} es := by
  refine ⟨fun hlaw before e after s heq hs => ?_, excludes_of_along⟩
  cases e with
  | cancel =>
    cases hdone : s.done with
    | true => exact .inl hdone
    | false =>
      have htracks := tracks hs
      have hcancel := cancel_of_not_done hdone
      have hnever (ds : List Event) (t : State) (hr : runs step s.call ds = some t) :
          t.resumed = 0 :=
        hlaw.never before _ after s heq hs rfl (by rw [hcancel]) ds t hr
      cases hphase : s.phase with
      | waiting => exact .inr hphase
      | initial =>
        have hfaults : s.call.faults = 0 :=
          hlaw.safe (before ++ [.cancel]) after _ (by simp [heq])
            (runs_concat.mpr ⟨s, hs, rfl⟩)
        simp [State.call, hcancel, State.cancelTimer, hphase] at hfaults
      | started =>
        -- the coroutine is suspended all the same, and the timer expires
        have hzero := hnever _ _ (runs_started (phase_call (by rw [hphase]; nofun) ▸ hphase))
        exact absurd hzero (Nat.succ_ne_zero _)
      | expired =>
        have hzero := hnever _ _ (runs_expired (phase_call (by rw [hphase]; nofun) ▸ hphase))
        exact absurd hzero (Nat.succ_ne_zero _)
      | aborted =>
        have := htracks.done (.inl hphase)
        rw [hdone] at this
        cases this
      | resuming =>
        have hzero := hnever [] _ rfl
        exact absurd (resumed_cancel.symm.trans hzero) (htracks.resuming hphase)
      | finished =>
        have := htracks.done (.inr hphase)
        rw [hdone] at this
        cases this
  | _ => trivial

end Law

end Operation

/-! ## Racing -/

namespace Race

/-- `race`, from where it waits for the first of its operations. -/
structure State where
  operations : List Operation.State
  latch : WhenAnyLatch
  /-- whose handler resumed `race`, and what the calls of `cancel()` then returned -/
  result : Option (Nat × List Bool)
deriving DecidableEq, Repr

inductive Event
  | expire (i : Nat)
  /-- the handler of the `i`-th operation runs -/
  | run (i : Nat)
  | finish (i : Nat)
deriving DecidableEq, Repr

/-- An operation that is awaited, with its timer set. -/
def pending : Operation.State := { phase := .waiting }

def suspended (n : Nat) : State where
  operations := List.replicate n pending
  latch := WhenAnyLatch.make.setContinuation
  result := none

namespace State

/-- An event of one operation. -/
def act (r : State) (i : Nat) (e : Operation.Event) : Option State := do
  let s ← r.operations[i]?
  let t ← Operation.step s e
  some { r with operations := r.operations.set i t }

/-- What is after the `co_await` of `race`. -/
def goOn (r : State) (i : Nat) : State :=
  { r with
    operations := r.operations.map Operation.State.call
    result := some (i, r.operations.map fun s => s.cancel.2) }

/-- The task of the `i`-th operation is over, and tells the latch. -/
def notify (r : State) (i : Nat) : State :=
  let q := { r with latch := r.latch.notifyAwaitableCompleted.1 }
  if r.latch.notifyAwaitableCompleted.2 then q.goOn i else q

/-- The handler of the `i`-th operation was queued without an error. -/
def hasExpired (r : State) (i : Nat) : Bool := r.operations[i]?.any fun s => s.phase = .expired

end State

def step (r : State) : Event → Option State
  | .expire i => r.act i .expire
  | .run i => (r.act i .run).map fun q => if r.hasExpired i then q.notify i else q
  | .finish i => r.act i .finish

/-- **What `race` promises when it has its result.** -/
structure Excludes (n : Nat) (es : List Event) : Prop where
  answers : Throughout step (fun r => ∀ w as, r.result = some (w, as) →
    as = (List.range n).map fun j => decide (j ≠ w)) (suspended n) es
  losers : Throughout step (fun r => ∀ w as, r.result = some (w, as) →
    ∀ j s, j ≠ w → r.operations[j]? = some s → s.resumed = 0) (suspended n) es

section Law

variable {n : Nat} {es : List Event} {e : Event} {r q : State} {i : Nat}

theorem act_eq_some {d : Operation.Event} : r.act i d = some q ↔
    ∃ s t, r.operations[i]? = some s ∧ Operation.step s d = some t ∧
      q = { r with operations := r.operations.set i t } := by
  simp only [State.act, Option.bind_eq_bind, Option.bind_eq_some_iff, Option.some.injEq]
  constructor
  · rintro ⟨s, hs, t, ht, rfl⟩
    exact ⟨s, t, hs, ht, rfl⟩
  · rintro ⟨s, t, hs, ht, rfl⟩
    exact ⟨s, hs, t, ht, rfl⟩

/-- Nobody has won, and nothing is cancelled. -/
structure Open (n : Nat) (r : State) : Prop where
  count : r.latch.finishedCount = 0
  result : r.result = none
  length : r.operations.length = n
  fresh : ∀ s ∈ r.operations, s.done = false ∧ (s.phase = .waiting ∨ s.phase = .expired)

/-- Somebody has won, and every operation answered that it is cancelled. -/
structure Won (n : Nat) (r : State) : Prop where
  count : r.latch.finishedCount ≠ 0
  result : ∃ w < n, r.result = some (w, List.replicate n true)

theorem open_suspended : Open n (suspended n) :=
  ⟨rfl, rfl, List.length_replicate, fun s hs => by
    rw [List.eq_of_mem_replicate hs]
    exact ⟨rfl, .inl rfl⟩⟩

theorem open_expire (h : Open n r) (he : step r (.expire i) = some q) : Open n q := by
  obtain ⟨s, t, hs, ht, rfl⟩ := act_eq_some.mp he
  refine ⟨h.count, h.result, List.length_set.trans h.length, fun u hu => ?_⟩
  rcases List.mem_or_eq_of_mem_set hu with hold | rfl
  · exact h.fresh u hold
  · simp only [Operation.step, Option.ite_none_right_eq_some, Option.some.injEq] at ht
    rw [← ht.2]
    exact ⟨(h.fresh s (List.mem_of_getElem? hs)).1, .inr rfl⟩

/-- While nobody has won, no handler is inside a coroutine. -/
theorem not_finish (h : Open n r) : step r (.finish i) = none := by
  rw [Option.eq_none_iff_forall_ne_some]
  intro q he
  obtain ⟨s, t, hs, ht, -⟩ := act_eq_some.mp he
  simp only [Operation.step, Option.ite_none_right_eq_some] at ht
  rcases (h.fresh s (List.mem_of_getElem? hs)).2 with hp | hp <;> cases ht.1.symm.trans hp

/-- The first handler that runs resumes `race`, and every operation answers true: the flag of the
winner is not set before its coroutine, and `race` with it, has come back. -/
theorem won_run (h : Open n r) (he : step r (.run i) = some q) : Won n q := by
  obtain ⟨p, hp, rfl⟩ := Option.map_eq_some_iff.mp he
  obtain ⟨s, t, hs, ht, rfl⟩ := act_eq_some.mp hp
  obtain ⟨hdone, hphase⟩ := h.fresh s (List.mem_of_getElem? hs)
  rcases hphase with hwaiting | hexpired
  · simp [Operation.step, hwaiting] at ht
  · have hlt : i < n := h.length ▸ (List.getElem?_eq_some_iff.mp hs).1
    have hwon : r.hasExpired i = true := by simp [State.hasExpired, hs, hexpired]
    have hfirst : r.latch.notifyAwaitableCompleted.2 = true := by
      simp [WhenAnyLatch.notifyAwaitableCompleted, h.count]
    have hflag : t.done = false := by
      simp only [Operation.step, hexpired, Option.some.injEq] at ht
      rw [← ht]
      exact hdone
    have hall : (r.operations.set i t).map (fun u => u.cancel.2) = List.replicate n true := by
      refine List.eq_replicate_iff.mpr ⟨by simp [h.length], fun b hb => ?_⟩
      obtain ⟨u, hu, rfl⟩ := List.mem_map.mp hb
      rcases List.mem_or_eq_of_mem_set hu with hold | rfl
      · rw [Operation.cancel_of_not_done (h.fresh u hold).1]
      · rw [Operation.cancel_of_not_done hflag]
    simp only [hwon, if_true, State.notify, hfirst]
    refine ⟨?_, i, hlt, by rw [State.goOn, hall]⟩
    simp [State.goOn, WhenAnyLatch.notifyAwaitableCompleted]

theorem won_step (h : Won n r) (he : step r e = some q) : Won n q := by
  cases e with
  | expire i =>
    obtain ⟨s, t, -, -, rfl⟩ := act_eq_some.mp he
    exact ⟨h.count, h.result⟩
  | finish i =>
    obtain ⟨s, t, -, -, rfl⟩ := act_eq_some.mp he
    exact ⟨h.count, h.result⟩
  | run i =>
    obtain ⟨p, hp, rfl⟩ := Option.map_eq_some_iff.mp he
    obtain ⟨s, t, -, -, rfl⟩ := act_eq_some.mp hp
    have hlate : r.latch.notifyAwaitableCompleted.2 = false := beq_eq_false_iff_ne.mpr h.count
    split
    · simp only [State.notify, hlate, Bool.false_eq_true, if_false]
      exact ⟨Nat.succ_ne_zero _, h.result⟩
    · exact ⟨h.count, h.result⟩

theorem tracks (h : runs step (suspended n) es = some r) :
    (∀ i, .run i ∉ es) ∧ Open n r ∨ (∃ i, .run i ∈ es) ∧ Won n r := by
  refine runs_induction
    (P := fun es r => (∀ i, .run i ∉ es) ∧ Open n r ∨ (∃ i, .run i ∈ es) ∧ Won n r)
    (.inl ⟨fun _ => List.not_mem_nil, open_suspended⟩) (fun es r e q ih he => ?_) h
  rcases ih with ⟨hnone, hopen⟩ | ⟨⟨i, hi⟩, hwon⟩
  · cases e with
    | expire i => exact .inl ⟨by simpa using hnone, open_expire hopen he⟩
    | run i => exact .inr ⟨⟨i, by simp⟩, won_run hopen he⟩
    | finish i => cases (not_finish hopen).symm.trans he
  · exact .inr ⟨⟨i, List.mem_append_left _ hi⟩, won_step hwon he⟩

/-- **`race` keeps its promise in no run in which it obtains a result.** -/
theorem excludes_iff (h : runs step (suspended n) es = some r) :
    Excludes n es ↔ ∀ i, .run i ∉ es := by
  constructor
  · intro hlaw i hi
    rcases tracks h with ⟨hnone, -⟩ | ⟨-, hwon⟩
    · exact hnone i hi
    · obtain ⟨w, hlt, hresult⟩ := hwon.result
      have hanswer := congrArg (·[w]?) (hlaw.answers es [] r (by simp) h w _ hresult)
      simp [hlt] at hanswer
  · intro hnone
    have hresult : Throughout step (fun q => q.result = none) (suspended n) es := by
      rintro before after q rfl hq
      rcases tracks hq with ⟨-, hopen⟩ | ⟨⟨i, hi⟩, -⟩
      · exact hopen.result
      · exact absurd (List.mem_append_left _ hi) (hnone i)
    constructor
    · intro before after q heq hq w as hw
      cases (hresult before after q heq hq).symm.trans hw
    · intro before after q heq hq w as hw
      cases (hresult before after q heq hq).symm.trans hw

end Law

end Race

/-- **When cancellation and completion exclude each other**, of one operation in a run of its own, and
of those of a `race`. -/
theorem cancellation_iff {es : List Operation.Event} {n : Nat} {ds : List Race.Event} {r : Race.State}
    (h : runs Race.step (Race.suspended n) ds = some r) :
    (Operation.Excludes es ↔ Along Operation.step Operation.Kind {} es) ∧
      (Race.Excludes n ds ↔ ∀ i, .run i ∉ ds) :=
  ⟨Operation.excludes_iff, Race.excludes_iff h⟩

/-- A delay is cancelled while it waits, and two race that both expire. -/
theorem cancellation_waiting : ∃ r, runs Race.step (Race.suspended 2) [.expire 1, .expire 0] = some r ∧
    Operation.Excludes [.awaitReady, .awaitSuspend, .cancel, .run, .cancel] ∧
    Race.Excludes 2 [.expire 1, .expire 0] := by
  refine ⟨_, rfl, (@cancellation_iff _ 0 [] _ rfl).1.mpr ?_,
    (@cancellation_iff [] _ _ _ rfl).2.mpr (by simp)⟩
  refine .cons trivial fun s hs => ?_
  cases hs
  refine .cons trivial fun s hs => ?_
  cases hs
  refine .cons (.inr rfl) fun s hs => ?_
  cases hs
  refine .cons trivial fun s hs => ?_
  cases hs
  exact .cons (.inl rfl) fun s hs => .nil

/-- A delay that has expired is cancelled and resumes all the same, one that is not started has no timer
to cancel, and of two that race the winner answers that it is cancelled. -/
theorem cancellation_fails :
    ¬ Operation.Excludes [.awaitReady, .awaitSuspend, .expire, .cancel] ∧
    ¬ Operation.Excludes [.cancel] ∧ ¬ Race.Excludes 2 [.expire 0, .run 0] := by
  refine ⟨fun h => ?_, fun h => ?_, fun h => ?_⟩
  · cases h.never [.awaitReady, .awaitSuspend, .expire] .cancel [] _ rfl rfl rfl rfl [.run] _ rfl
  · cases h.safe [.cancel] [] _ rfl rfl
  · cases h.answers [.expire 0, .run 0] [] _ rfl rfl 0 _ rfl

end EzCpp.Async
