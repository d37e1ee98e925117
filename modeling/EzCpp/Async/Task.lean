import EzCpp.Async.Awaiter

/-!
# Awaiting a task

`co_await` asks the receiver of a task whether it has a value. If not, the awaiting coroutine becomes
the continuation, in place of any other, and control goes into the coroutine of the task: also when it
was started already and waits for something else, and when it has ended with an exception and is at its
final suspend point. Awaiting is right for a task that was never started and for one that has a value,
and for no other (`awaitLaw_iff`).

The awaiting coroutines are numbered in the order of their awaits.
-/

namespace EzCpp.Async

open EzCpp.Lib

inductive AwaitReturnMode
  | constRef
  | move
deriving DecidableEq, Repr

namespace Receiver

variable {ε α : Type}

def hasValue : Receiver ε α → Bool
  | .value _ => true
  | _ => false

/-- The value is moved from, which leaves `rest` of it. -/
def take (rest : α → α) : Receiver ε α → Receiver ε α
  | .value a => .value (rest a)
  | r => r

end Receiver

namespace Task

/-- Where the coroutine of the task is. -/
inductive Life
  | notStarted
  | running
  | suspended
  /-- at the final suspend point -/
  | done
deriving DecidableEq, Repr

structure State (ε α : Type) where
  life : Life := .notStarted
  receiver : Receiver ε α := .monostate
  /-- `noop_coroutine` where there is none -/
  continuation : Option (Nat × AwaitReturnMode) := none
  awaits : Nat := 0
  /-- the awaiting coroutines that were suspended -/
  suspended : List Nat := []
  /-- those that were continued -/
  continued : List Nat := []
  /-- what the awaits came to -/
  received : List (Nat × Except (Thrown ε) α) := []
  /-- how often a coroutine was resumed that was running or at its end -/
  faults : Nat := 0

inductive Event (ε α : Type)
  /-- `resume()`, or what the coroutine waits for resumes it -/
  | resume
  | coAwait (mode : AwaitReturnMode)
  /-- the coroutine waits for something -/
  | suspend
  | complete (o : Outcome ε α)
deriving DecidableEq, Repr

variable {ε α : Type}

namespace State

/-- `await_resume` -/
def awaitResume (rest : α → α) (s : State ε α) (i : Nat) (mode : AwaitReturnMode) : State ε α :=
  { s with
    received := s.received ++ [(i, s.receiver.get)]
    receiver :=
      match mode with
      | .constRef => s.receiver
      | .move => s.receiver.take rest }

/-- Control goes into the coroutine of the task. -/
def transfer (s : State ε α) : State ε α :=
  match s.life with
  | .notStarted | .suspended => { s with life := .running }
  | .running | .done => { s with faults := s.faults + 1 }

/-- `await_suspend` -/
def awaitSuspend (s : State ε α) (i : Nat) (mode : AwaitReturnMode) : State ε α :=
  { s with continuation := some (i, mode), suspended := s.suspended ++ [i] }.transfer

/-- `co_await`, up to where the awaiting coroutine is suspended or goes on. -/
def coAwait (rest : α → α) (s : State ε α) (mode : AwaitReturnMode) : State ε α :=
  let next := { s with awaits := s.awaits + 1 }
  if s.receiver.hasValue then next.awaitResume rest s.awaits mode
  else next.awaitSuspend s.awaits mode

/-- `TaskFinalAwaiter`: the continuation goes on. -/
def finalSuspend (rest : α → α) (s : State ε α) : State ε α :=
  match s.continuation with
  | none => s
  | some (i, mode) => { s with continued := s.continued ++ [i] }.awaitResume rest i mode

end State

def step (rest : α → α) (s : State ε α) : Event ε α → Option (State ε α)
  | .resume =>
    match s.life with
    | .notStarted | .suspended => some { s with life := .running }
    | .running | .done => none
  | .coAwait mode => some (s.coAwait rest mode)
  | .suspend => if s.life = .running then some { s with life := .suspended } else none
  | .complete o =>
    if s.life = .running then
      some ({ s with life := .done, receiver := .set o }.finalSuspend rest)
    else none

/-! ## The law -/

/-- Every awaiting coroutine that was suspended is continued once, when the task completes. -/
def Continues (s : State ε α) : Prop :=
  s.suspended.Nodup ∧ s.continued.Perm (if s.life = .done then s.suspended else [])

/-- **The law of awaiting, for a run.** No coroutine is resumed that cannot be; control goes into a
coroutine that was not started, and into no other; a task that is over is not waited for, and gives
what is stored. -/
structure AwaitLaw (rest : α → α) (es : List (Event ε α)) : Prop where
  safe : Throughout (step rest) (fun s => s.faults = 0) {} es
  transfers : Along (step rest) (fun s e => ∀ mode t, e = .coAwait mode → step rest s e = some t →
    t.suspended ≠ s.suspended → s.life = .notStarted) {} es
  delivers : Along (step rest) (fun s e => ∀ mode t, e = .coAwait mode → step rest s e = some t →
    s.life = .done →
      t.suspended = s.suspended ∧ t.received = s.received ++ [(s.awaits, s.receiver.get)]) {} es
  continues : Throughout (step rest) Continues {} es

/-- A task is awaited when it was never started, or has a value. -/
def Kind (s : State ε α) : Event ε α → Prop
  | .coAwait _ => s.life = .notStarted ∨ s.receiver.hasValue = true
  | _ => True

section Law

variable {rest : α → α} {es : List (Event ε α)} {e : Event ε α} {s t : State ε α} {i : Nat}
  {mode : AwaitReturnMode}

theorem coAwait_ready (h : s.receiver.hasValue = true) : s.coAwait rest mode =
    { s with awaits := s.awaits + 1 }.awaitResume rest s.awaits mode := if_pos h

theorem coAwait_unready (h : s.receiver.hasValue = false) : s.coAwait rest mode =
    { s with awaits := s.awaits + 1 }.awaitSuspend s.awaits mode :=
  if_neg (h ▸ Bool.false_ne_true)

@[simp] theorem suspended_transfer : s.transfer.suspended = s.suspended := by
  unfold State.transfer
  split <;> rfl

theorem suspended_coAwait_unready (h : s.receiver.hasValue = false) :
    (s.coAwait rest mode).suspended = s.suspended ++ [s.awaits] := by
  rw [coAwait_unready h, State.awaitSuspend, suspended_transfer]

theorem step_resume (h : step rest s .resume = some t) :
    (s.life = .notStarted ∨ s.life = .suspended) ∧ t = { s with life := .running } := by
  simp only [step] at h
  split at h
  next hlife => exact ⟨.inl hlife, (Option.some.inj h).symm⟩
  next hlife => exact ⟨.inr hlife, (Option.some.inj h).symm⟩
  next => cases h
  next => cases h

theorem step_suspend (h : step rest s .suspend = some t) :
    s.life = .running ∧ t = { s with life := .suspended } := by
  simp only [step, Option.ite_none_right_eq_some, Option.some.injEq] at h
  exact ⟨h.1, h.2.symm⟩

theorem step_complete {o : Outcome ε α} (h : step rest s (.complete o) = some t) :
    s.life = .running ∧ t = { s with life := .done, receiver := .set o }.finalSuspend rest := by
  simp only [step, Option.ite_none_right_eq_some, Option.some.injEq] at h
  exact ⟨h.1, h.2.symm⟩

/-! ## Where tasks are awaited as they may be -/

/-- One awaiting coroutine is suspended at most, by the await that starts the task, and it is the
continuation until the task is over. -/
structure Sound (s : State ε α) : Prop where
  faults : s.faults = 0
  single : s.suspended.length ≤ 1
  fresh : s.life = .notStarted → s.suspended = []
  before : s.life ≠ .done → s.receiver = .monostate ∧ s.continued = [] ∧
    s.suspended = (s.continuation.map Prod.fst).toList
  after : s.life = .done → s.continued = s.suspended

theorem Sound.continues (h : Sound s) : Continues s := by
  constructor
  · cases hs : s.suspended with
    | nil => exact .nil
    | cons i l =>
      have hlen := h.single
      rw [hs, List.length_cons] at hlen
      rw [List.length_eq_zero_iff.mp (Nat.le_zero.mp (Nat.le_of_succ_le_succ hlen))]
      exact List.nodup_cons.mpr ⟨List.not_mem_nil, .nil⟩
  · split
    next hdone => rw [h.after hdone]
    next hlife => rw [(h.before hlife).2.1]

theorem sound_coAwait (h : Sound s) (hkind : Kind s (.coAwait mode)) :
    Sound (s.coAwait rest mode) := by
  cases hv : s.receiver.hasValue with
  | true =>
    rw [coAwait_ready hv]
    have hdone : s.life = .done := by
      by_contra hlife
      rw [(h.before hlife).1] at hv
      cases hv
    exact ⟨h.faults, h.single, h.fresh, fun hlife => absurd hdone hlife, h.after⟩
  | false =>
    rw [coAwait_unready hv]
    have hlife : s.life = .notStarted := hkind.resolve_right (hv ▸ Bool.false_ne_true)
    have hnotDone : s.life ≠ .done := hlife ▸ nofun
    have hstate : ({ s with awaits := s.awaits + 1 } : State ε α).awaitSuspend s.awaits mode =
        { s with
          life := .running, awaits := s.awaits + 1, continuation := some (s.awaits, mode),
          suspended := [s.awaits] } := by
      simp [State.awaitSuspend, State.transfer, hlife, h.fresh hlife]
    rw [hstate]
    obtain ⟨hreceiver, hcontinued, -⟩ := h.before hnotDone
    exact ⟨h.faults, Nat.le_refl 1, nofun, fun _ => ⟨hreceiver, hcontinued, rfl⟩, nofun⟩

theorem sound_complete {o : Outcome ε α} (h : Sound s) (hlife : s.life = .running) :
    Sound ({ s with life := .done, receiver := .set o }.finalSuspend rest) := by
  obtain ⟨-, hcontinued, hsuspended⟩ := h.before (hlife ▸ nofun)
  unfold State.finalSuspend
  split
  next hnone =>
    have hnone : s.continuation = none := hnone
    refine ⟨h.faults, h.single, nofun, fun hne => absurd rfl hne, fun _ => ?_⟩
    show s.continued = s.suspended
    rw [hcontinued, hsuspended, hnone]
    rfl
  next i mode hsome =>
    have hsome : s.continuation = some (i, mode) := hsome
    refine ⟨h.faults, h.single, nofun, fun hne => absurd rfl hne, fun _ => ?_⟩
    show s.continued ++ [i] = s.suspended
    rw [hcontinued, hsuspended, hsome]
    rfl

theorem sound_step (h : Sound s) (hkind : Kind s e) (he : step rest s e = some t) : Sound t := by
  cases e with
  | resume =>
    obtain ⟨hlife, rfl⟩ := step_resume he
    have hnotDone : s.life ≠ .done := by rcases hlife with hlife | hlife <;> rw [hlife] <;> nofun
    exact ⟨h.faults, h.single, nofun, fun _ => h.before hnotDone, nofun⟩
  | coAwait mode =>
    cases he
    exact sound_coAwait h hkind
  | suspend =>
    obtain ⟨hlife, rfl⟩ := step_suspend he
    exact ⟨h.faults, h.single, nofun, fun _ => h.before (hlife ▸ nofun), nofun⟩
  | complete o =>
    obtain ⟨hlife, rfl⟩ := step_complete he
    exact sound_complete h hlife

theorem sound_of_along (h : Along (step rest) Kind {} es) : Throughout (step rest) Sound {} es :=
  throughout_of_along ⟨rfl, Nat.zero_le 1, fun _ => rfl, fun _ => ⟨rfl, rfl, rfl⟩, nofun⟩
    (fun _ _ _ => sound_step) h

/-! ## The law holds there, and there only -/

theorem awaitLaw_of_along (h : Along (step rest) Kind {} es) : AwaitLaw rest es where
  safe before after s heq hs := (sound_of_along h before after s heq hs).faults
  transfers before e after s heq hs mode t he ht hne := by
    subst he
    cases ht
    rcases h before _ after s heq hs with hlife | hv
    · exact hlife
    · rw [coAwait_ready hv] at hne
      exact absurd rfl hne
  delivers before e after s heq hs mode t he ht hdone := by
    subst he
    cases ht
    have hv := (h before _ after s heq hs).resolve_left fun hlife => nomatch hlife.symm.trans hdone
    rw [coAwait_ready hv]
    exact ⟨rfl, rfl⟩
  continues before after s heq hs := (sound_of_along h before after s heq hs).continues

/-- **Awaiting a task keeps the law in exactly the runs where it is awaited before it is started, or
once it has a value.** -/
theorem awaitLaw_iff (rest : α → α) (es : List (Event ε α)) :
    AwaitLaw rest es ↔ Along (step rest) Kind {} es := by
  refine ⟨fun hlaw before e after s heq hs => ?_, awaitLaw_of_along⟩
  cases e with
  | coAwait mode =>
    cases hv : s.receiver.hasValue with
    | true => exact .inr hv
    | false =>
      have hgrows : (s.coAwait rest mode).suspended ≠ s.suspended := by
        rw [suspended_coAwait_unready hv]
        simp
      exact .inl (hlaw.transfers before _ after s heq hs mode _ rfl rfl hgrows)
  | _ => trivial

end Law

/-- A task that has ended with an exception is resumed at its final suspend point when it is awaited,
and one that waits for something is resumed before it has it. -/
theorem awaitLaw_fails :
    ¬ AwaitLaw id ([.resume, .complete (.exception ()), .coAwait .constRef] : List (Event Unit Nat)) ∧
    ¬ AwaitLaw id ([.resume, .suspend, .coAwait .constRef] : List (Event Unit Nat)) := by
  constructor
  · intro h
    cases h.safe [.resume, .complete (.exception ()), .coAwait .constRef] [] _ rfl rfl
  · intro h
    cases h.transfers [.resume, .suspend] (.coAwait .constRef) [] _ rfl rfl .constRef _ rfl rfl
      (by decide)

end Task

end EzCpp.Async
