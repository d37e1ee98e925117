import EzCpp.Async.Awaiter

/-!
# `when_any`

The latch counts the completions, and the first one resumes the awaiting coroutine. `is_ready`,
asked again when every task has been started, is true as soon as there was a completion, so a
completion that comes before `start_tasks` returns is acted on twice: by the latch, before the
tasks that are left are started, and by `await_suspend` returning false (`whenAny_resumesOnce_iff`).
-/

namespace EzCpp.Async

open EzCpp.Lib

structure WhenAnyLatch where
  finishedCount : Nat
  /-- whether `m_continuation` is set -/
  continuation : Bool
deriving DecidableEq, Repr

namespace WhenAnyLatch

def make : WhenAnyLatch := ⟨0, false⟩

def isReady (l : WhenAnyLatch) : Bool := 0 < l.finishedCount

def setContinuation (l : WhenAnyLatch) : WhenAnyLatch := { l with continuation := true }

def notifyAwaitableCompleted (l : WhenAnyLatch) : WhenAnyLatch × Bool :=
  ({ l with finishedCount := l.finishedCount + 1 }, l.finishedCount == 0)

end WhenAnyLatch

namespace WhenAny

variable {ε α : Type}

/-- One step of `m_tasks.for_each` in `await_resume`. -/
def scan (result : Option α) (task : ContinuationTask ε α) : Except (Thrown ε) (Option α) :=
  if task.done then task.get.map some else .ok result

/-- The value of the last of the tasks that are done, in tuple order, or the exception of the first
one that has one; `none` is the default value of the result type. -/
def awaitResume (tasks : List (ContinuationTask ε α)) : Except (Thrown ε) (Option α) :=
  tasks.foldlM scan none

end WhenAny

def whenAny {ε α : Type} : Combinator WhenAnyLatch ε α (Except (Thrown ε) (Option α)) where
  latch _ := WhenAnyLatch.make.setContinuation
  notifyAwaitableCompleted := WhenAnyLatch.notifyAwaitableCompleted
  isReady l _ := l.isReady
  awaitResume := WhenAny.awaitResume

namespace WhenAny

variable {ε α : Type} {n i : Nat} {o : Outcome ε α}
  {p q : Process WhenAnyLatch ε α (Except (Thrown ε) (Option α))}
  {tasks : List (ContinuationTask ε α)} {es starting later : List (Event ε α)} {e : Event ε α}

/-- The outcome of the task that completed first. -/
def winner (es : List (Event ε α)) : Option (Outcome ε α) :=
  es.findSome? fun
    | .complete _ o => some o
    | _ => none

/-- What `await_resume` makes of an outcome. -/
def deliver : Outcome ε α → Except (Thrown ε) (Option α)
  | .value v => .ok (some v)
  | .exception e => .error (.exceptionPtr e)

/-- The awaiting coroutine was continued once, at the first completion and with its outcome, after
all of `n` tasks had been started. -/
def ResumesOnce (n : Nat) (es : List (Event ε α))
    (p : Process WhenAnyLatch ε α (Except (Thrown ε) (Option α))) : Prop :=
  match winner es with
  | none => p.continuations = []
  | some o => ∃ c, p.continuations = [c] ∧ c.started = n ∧ c.completed = 1 ∧
      c.received = deliver o

/-! ## What is received -/

theorem scan_of_not_done (h : completed tasks = 0) (result : Option α) :
    tasks.foldlM scan result = (.ok result : Except (Thrown ε) (Option α)) := by
  induction tasks with
  | nil => rfl
  | cons t tasks ih =>
    rw [completed, List.countP_eq_zero] at h
    have ht : scan result t = .ok result := by
      unfold scan
      rw [if_neg (h t List.mem_cons_self)]
    rw [List.foldlM_cons, ht]
    exact ih (List.countP_eq_zero.mpr fun u hu => h u (List.mem_cons_of_mem _ hu))

/-- While one task alone is done, its outcome is what is received. -/
theorem awaitResume_set (h : completed tasks = 0) (hi : i < tasks.length) :
    awaitResume (tasks.set i (.complete o)) = deliver o := by
  rw [completed, List.countP_eq_zero] at h
  have hdone (result : Option α) : scan result (.complete o) = deliver o := by
    cases o <;> rfl
  unfold awaitResume
  rw [List.set_eq_take_append_cons_drop, if_pos hi, List.foldlM_append,
    scan_of_not_done (List.countP_eq_zero.mpr fun t ht => h t (List.mem_of_mem_take ht))]
  show (scan none (.complete o) >>= fun r => List.foldlM scan r _) = _
  rw [hdone]
  cases o with
  | value v =>
    exact scan_of_not_done (List.countP_eq_zero.mpr fun t ht => h t (List.mem_of_mem_drop ht)) _
  | exception e => rfl

/-! ## Before `start_tasks` returns -/

/-- The latch counts what is completed, and has resumed its continuation at the first one. -/
structure Counts (p : Process WhenAnyLatch ε α (Except (Thrown ε) (Option α))) : Prop where
  count : p.latch.finishedCount = completed p.tasks
  waiting : completed p.tasks = 0 → p.continuations = []
  resumed : completed p.tasks ≠ 0 → p.continuations ≠ []

theorem Counts.step (h : Counts p) (he : step whenAny p e = some q) : Counts q := by
  have hcount := h.count
  rcases step_cases he with ⟨-, -, rfl⟩ | ⟨i, o, -, -, hd, rfl⟩ | ⟨-, -, rfl⟩ | ⟨-, -, -, rfl⟩
  · exact ⟨h.count, h.waiting, h.resumed⟩
  · have hone := completed_set (o := o) hd
    unfold Process.notify
    split
    next =>
      refine ⟨?_, fun h0 => ?_, fun _ => ?_⟩
      · simp only [whenAny, WhenAnyLatch.notifyAwaitableCompleted, resume_latch, resume_tasks]
        omega
      · simp only [resume_tasks] at h0
        omega
      · simp [Process.resume]
    next hn =>
      have hpos : p.latch.finishedCount ≠ 0 := by
        simpa [whenAny, WhenAnyLatch.notifyAwaitableCompleted] using hn
      refine ⟨?_, fun h0 => ?_, fun _ => h.resumed (hcount ▸ hpos)⟩
      · simp only [whenAny, WhenAnyLatch.notifyAwaitableCompleted]
        omega
      · simp only at h0
        omega
  · exact ⟨h.count, h.waiting, h.resumed⟩
  · unfold Process.awaitSuspend
    split
    · exact ⟨h.count, h.waiting, h.resumed⟩
    next hready =>
      have hpos : p.latch.finishedCount ≠ 0 := by
        simpa [whenAny, WhenAnyLatch.isReady] using hready
      exact ⟨h.count, fun h0 => absurd (hcount.trans h0) hpos, fun _ => by simp [Process.resume]⟩

theorem Counts.initial : @Counts ε α (suspended whenAny n) := by
  have h0 : completed (@suspended _ ε α _ whenAny n).tasks = 0 := by
    simp [completed, suspended]
  exact ⟨h0.symm, fun _ => rfl, fun h => absurd h0 h⟩

theorem winner_concat (es : List (Event ε α)) (e : Event ε α) :
    winner (es ++ [e]) = (winner es).or (winner [e]) := by
  simp only [winner, List.findSome?_append]

theorem winner_eq_none_iff : winner es = none ↔ ∀ i o, Event.complete i o ∉ es := by
  rw [winner, List.findSome?_eq_none_iff]
  constructor
  · intro h i o ho
    exact absurd (h _ ho) (by simp)
  · intro h e he
    cases e with
    | complete i o => exact absurd he (h i o)
    | _ => rfl

/-- The latch alone continues the awaiting coroutine. -/
structure ByLatch (n : Nat) (es : List (Event ε α))
    (p : Process WhenAnyLatch ε α (Except (Thrown ε) (Option α))) : Prop where
  tracks : Tracks n es p
  counts : Counts p
  returned : p.returned = true
  once : ResumesOnce n es p

theorem ByLatch.step (h : ByLatch n es p) (he : step whenAny p e = some q) :
    ByLatch n (es ++ [e]) q := by
  refine ⟨h.tracks.step he, h.counts.step he, returned_mono he h.returned, ?_⟩
  have hsame (hw : winner [e] = none) : winner (es ++ [e]) = winner es := by
    rw [winner_concat, hw, Option.or_none]
  have honce := h.once
  rcases step_cases he with ⟨rfl, -, rfl⟩ | ⟨i, o, rfl, hi, hd, rfl⟩ | ⟨rfl, -, rfl⟩ |
    ⟨-, -, hr, -⟩
  · simpa only [ResumesOnce, hsame rfl] using honce
  · unfold ResumesOnce at honce ⊢
    rw [winner_concat]
    unfold Process.notify
    cases hw : winner es with
    | none =>
      rw [hw] at honce
      have h0 := h.tracks.completed_eq_zero_iff.mpr (winner_eq_none_iff.mp hw)
      have hcount : p.latch.finishedCount = 0 := h.counts.count.trans h0
      have hlen : i < p.tasks.length := by
        rw [h.tracks.length]
        exact Nat.lt_of_lt_of_le hi h.tracks.started
      have hone := completed_set (o := o) hd
      refine ⟨⟨.latch, n, 1, deliver o⟩, ?_, rfl, rfl, rfl⟩
      simp only [whenAny, WhenAnyLatch.notifyAwaitableCompleted, hcount, Process.resume, honce,
        h.tracks.returned h.returned, hone, h0, awaitResume_set h0 hlen]
      rfl
    | some w =>
      have hne : completed p.tasks ≠ 0 := fun h0 => by
        rw [winner_eq_none_iff.mpr (h.tracks.completed_eq_zero_iff.mp h0)] at hw
        cases hw
      have hcount : (p.latch.finishedCount == 0) = false := by
        rw [h.counts.count]
        exact beq_eq_false_iff_ne.mpr hne
      rw [hw] at honce
      simp only [whenAny, WhenAnyLatch.notifyAwaitableCompleted, hcount, Option.some_or]
      exact honce
  · simpa only [ResumesOnce, hsame rfl] using honce
  · rw [h.returned] at hr
    cases hr

/-- The first of two awaitables is ready when it is started. -/
def ready : List (Event Unit Nat) := [.start, .complete 0 (.value 1), .start]

end WhenAny

end EzCpp.Async
