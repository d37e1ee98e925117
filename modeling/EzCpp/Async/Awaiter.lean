import EzCpp.Lib.Runs
import Mathlib.Data.List.Count

/-!
# Awaiting a tuple of tasks

`when_all` and `when_any` await the same way. Each awaitable is wrapped in a continuation task;
`await_suspend` registers the awaiting coroutine in a latch and starts the tasks in tuple order; a
task that reaches its final suspend point notifies the latch, which may resume the awaiting
coroutine inline; and when every task has been started, `await_suspend` returns
`!m_latch.is_ready()`, where `false` continues the awaiting coroutine too.

`step` is this machine, for any latch. A completion can come anywhere: inside the `start` of its
own task or of another one, between two starts, or after `start_tasks` has returned. What the
awaiting coroutine does once it is continued is not ours to say, but it matters when it is at its
end, since `WhenAllLatch::is_ready` asks for it (`Event.finish`). Tuple components share one type.
-/

namespace EzCpp.Async

open EzCpp.Lib

/-- How an awaitable completes. -/
inductive Outcome (ε α : Type)
  | value (a : α)
  | exception (e : ε)
deriving DecidableEq, Repr

/-- What `Receiver::get` throws: the stored exception, or `ValueNotSet`. -/
inductive Thrown (ε : Type)
  | exceptionPtr (e : ε)
  | valueNotSet
deriving DecidableEq, Repr

/-- The promise side of a task: nothing yet, a value, or an exception. -/
inductive Receiver (ε α : Type)
  | monostate
  | value (a : α)
  | exception (e : ε)
deriving DecidableEq, Repr

namespace Receiver

variable {ε α : Type}

/-- `set_value`, or `unhandled_exception`. -/
def set : Outcome ε α → Receiver ε α
  | .value a => .value a
  | .exception e => .exception e

def get : Receiver ε α → Except (Thrown ε) α
  | .exception e => .error (.exceptionPtr e)
  | .monostate => .error .valueNotSet
  | .value a => .ok a

end Receiver

/-- `WhenAllContinuationTask` and `WhenAnyContinuationTask`. -/
structure ContinuationTask (ε α : Type) where
  receiver : Receiver ε α := .monostate
  done : Bool := false
deriving DecidableEq, Repr

namespace ContinuationTask

variable {ε α : Type}

def get (t : ContinuationTask ε α) : Except (Thrown ε) α := t.receiver.get

/-- The task reaches its final suspend point. -/
def complete (o : Outcome ε α) : ContinuationTask ε α := ⟨Receiver.set o, true⟩

end ContinuationTask

/-- The awaiting coroutine: at its `co_await`, past it, or at its end. -/
inductive Awaiting
  | suspended
  | continued
  | done
deriving DecidableEq, Repr

/-- Who continues the awaiting coroutine: `resume()` in the latch, or `await_suspend` returning
false. -/
inductive Cause
  | latch
  | awaitSuspend
deriving DecidableEq, Repr

/-- One continuation of the awaiting coroutine: its cause, how many tasks were started and
completed by then, and what `await_resume` gave. -/
structure Continuation (ρ : Type) where
  cause : Cause
  started : Nat
  completed : Nat
  received : ρ
deriving DecidableEq, Repr

/-- What `when_all` and `when_any` differ in: the latch and `await_resume`. -/
structure Combinator (κ ε α ρ : Type) where
  /-- `set_continuation` on the latch made for `n` tasks -/
  latch : Nat → κ
  /-- `notify_awaitable_completed`, and whether it resumes the continuation -/
  notifyAwaitableCompleted : κ → κ × Bool
  isReady : κ → Awaiting → Bool
  awaitResume : List (ContinuationTask ε α) → ρ

/-- The awaiter, and the coroutine that awaits it. -/
structure Process (κ ε α ρ : Type) where
  tasks : List (ContinuationTask ε α)
  /-- how far `m_tasks.for_each` has come -/
  started : Nat
  /-- `start_tasks` has returned -/
  returned : Bool
  latch : κ
  awaiting : Awaiting
  continuations : List (Continuation ρ)

inductive Event (ε α : Type)
  /-- the next task is started -/
  | start
  /-- the `i`-th task reaches its final suspend point -/
  | complete (i : Nat) (o : Outcome ε α)
  /-- the awaiting coroutine, continued, reaches its end -/
  | finish
  /-- `start_tasks` returns, and `await_suspend` with it -/
  | returns
deriving DecidableEq, Repr

section Machine

variable {κ ε α ρ : Type} (c : Combinator κ ε α ρ)

/-- The awaiting coroutine has suspended on `n` tasks, `set_continuation` is done. -/
def suspended (n : Nat) : Process κ ε α ρ where
  tasks := List.replicate n {}
  started := 0
  returned := false
  latch := c.latch n
  awaiting := .suspended
  continuations := []

def completed (tasks : List (ContinuationTask ε α)) : Nat := tasks.countP (·.done)

namespace Process

/-- Continue the awaiting coroutine. -/
def resume (p : Process κ ε α ρ) (cause : Cause) : Process κ ε α ρ :=
  { p with
    awaiting := .continued
    continuations := p.continuations ++
      [⟨cause, p.started, completed p.tasks, c.awaitResume p.tasks⟩] }

/-- `final_suspend` of a task: the latch is told, and may resume the awaiting coroutine. -/
def notify (p : Process κ ε α ρ) : Process κ ε α ρ :=
  let q := { p with latch := (c.notifyAwaitableCompleted p.latch).1 }
  if (c.notifyAwaitableCompleted p.latch).2 then q.resume c .latch else q

/-- `await_suspend` returns what `start_tasks` returns, `!m_latch.is_ready()`. -/
def awaitSuspend (p : Process κ ε α ρ) : Process κ ε α ρ :=
  if !c.isReady p.latch p.awaiting then p else p.resume c .awaitSuspend

end Process

/-- What an event does, if it can happen. -/
def step (p : Process κ ε α ρ) : Event ε α → Option (Process κ ε α ρ)
  | .start =>
    if p.started < p.tasks.length then some { p with started := p.started + 1 } else none
  | .complete i o =>
    if i < p.started ∧ p.tasks[i]?.map (·.done) = some false then
      some (Process.notify c { p with tasks := p.tasks.set i (.complete o) })
    else none
  | .finish => if p.awaiting = .continued then some { p with awaiting := .done } else none
  | .returns =>
    if p.started = p.tasks.length ∧ p.returned = false then
      some (Process.awaitSuspend c { p with returned := true })
    else none

end Machine

/-! ## What a run says about its tasks -/

section Bookkeeping

variable {κ ε α ρ : Type} {c : Combinator κ ε α ρ} {p q : Process κ ε α ρ} {n i : Nat}
  {es : List (Event ε α)} {o : Outcome ε α}

@[simp] theorem resume_tasks (p : Process κ ε α ρ) (cause : Cause) :
    (p.resume c cause).tasks = p.tasks := rfl

@[simp] theorem resume_started (p : Process κ ε α ρ) (cause : Cause) :
    (p.resume c cause).started = p.started := rfl

@[simp] theorem resume_returned (p : Process κ ε α ρ) (cause : Cause) :
    (p.resume c cause).returned = p.returned := rfl

@[simp] theorem resume_latch (p : Process κ ε α ρ) (cause : Cause) :
    (p.resume c cause).latch = p.latch := rfl

@[simp] theorem notify_tasks (p : Process κ ε α ρ) : (p.notify c).tasks = p.tasks := by
  unfold Process.notify
  split <;> rfl

@[simp] theorem notify_started (p : Process κ ε α ρ) : (p.notify c).started = p.started := by
  unfold Process.notify
  split <;> rfl

@[simp] theorem notify_returned (p : Process κ ε α ρ) : (p.notify c).returned = p.returned := by
  unfold Process.notify
  split <;> rfl

@[simp] theorem awaitSuspend_tasks (p : Process κ ε α ρ) :
    (p.awaitSuspend c).tasks = p.tasks := by
  unfold Process.awaitSuspend
  split <;> rfl

@[simp] theorem awaitSuspend_started (p : Process κ ε α ρ) :
    (p.awaitSuspend c).started = p.started := by
  unfold Process.awaitSuspend
  split <;> rfl

@[simp] theorem awaitSuspend_returned (p : Process κ ε α ρ) :
    (p.awaitSuspend c).returned = p.returned := by
  unfold Process.awaitSuspend
  split <;> rfl

theorem step_returns (h : step c p .returns = some q) :
    p.started = p.tasks.length ∧ p.returned = false ∧
      q = Process.awaitSuspend c { p with returned := true } := by
  simp only [step, Option.ite_none_right_eq_some, Option.some.injEq] at h
  exact ⟨h.1.1, h.1.2, h.2.symm⟩

/-- Everything an event can do. -/
theorem step_cases {e : Event ε α} (h : step c p e = some q) :
    (e = .start ∧ p.started < p.tasks.length ∧ q = { p with started := p.started + 1 }) ∨
    (∃ i o, e = .complete i o ∧ i < p.started ∧ p.tasks[i]?.map (·.done) = some false ∧
      q = Process.notify c { p with tasks := p.tasks.set i (.complete o) }) ∨
    (e = .finish ∧ p.awaiting = .continued ∧ q = { p with awaiting := .done }) ∨
    (e = .returns ∧ p.started = p.tasks.length ∧ p.returned = false ∧
      q = Process.awaitSuspend c { p with returned := true }) := by
  cases e with
  | start =>
    simp only [step, Option.ite_none_right_eq_some, Option.some.injEq] at h
    exact .inl ⟨rfl, h.1, h.2.symm⟩
  | complete i o =>
    simp only [step, Option.ite_none_right_eq_some, Option.some.injEq] at h
    exact .inr (.inl ⟨i, o, rfl, h.1.1, h.1.2, h.2.symm⟩)
  | finish =>
    simp only [step, Option.ite_none_right_eq_some, Option.some.injEq] at h
    exact .inr (.inr (.inl ⟨rfl, h.1, h.2.symm⟩))
  | returns => exact .inr (.inr (.inr ⟨rfl, step_returns h⟩))

/-- `start_tasks` returns once. -/
theorem returned_mono {e : Event ε α} (h : step c p e = some q) (hp : p.returned = true) :
    q.returned = true := by
  rcases step_cases h with ⟨-, -, rfl⟩ | ⟨i, o, -, -, -, rfl⟩ | ⟨-, -, rfl⟩ | ⟨-, -, hr, -⟩
  · exact hp
  · rw [notify_returned]
    exact hp
  · exact hp
  · rw [hp] at hr
    cases hr

/-- The tasks of a run on `n` tasks, after the events `es`. -/
structure Tracks (n : Nat) (es : List (Event ε α)) (p : Process κ ε α ρ) : Prop where
  length : p.tasks.length = n
  started : p.started ≤ n
  task : ∀ i, i < n → p.tasks[i]? = some {} ∨ ∃ o, p.tasks[i]? = some (ContinuationTask.complete o)
  complete : ∀ i o, Event.complete i o ∈ es ↔ p.tasks[i]? = some (ContinuationTask.complete o)
  returned : p.returned = true → p.started = n

namespace Tracks

theorem initial : Tracks n [] (suspended c n) where
  length := List.length_replicate
  started := Nat.zero_le n
  task i hi := .inl (List.getElem?_replicate_of_lt hi)
  complete i o := by
    simp only [List.not_mem_nil, false_iff, suspended]
    intro h
    have := List.eq_of_mem_replicate (List.mem_of_getElem? h)
    simp [ContinuationTask.complete] at this
  returned h := by simp [suspended] at h

/-- A task completes at most once: it is not done when it does. -/
theorem set (h : Tracks n es p) (hs : i < p.started)
    (hd : p.tasks[i]?.map (·.done) = some false) :
    Tracks n (es ++ [.complete i o]) { p with tasks := p.tasks.set i (.complete o) } where
  length := by simpa using h.length
  started := h.started
  task j hj := by
    by_cases hij : i = j
    · subst hij
      exact .inr ⟨o, by simp [h.length, hj]⟩
    · simpa [List.getElem?_set, hij] using h.task j hj
  complete j r := by
    have hi : i < p.tasks.length := by rw [h.length]; exact Nat.lt_of_lt_of_le hs h.started
    by_cases hij : i = j
    · subst hij
      have hn : Event.complete i r ∉ es := by
        intro hm
        rw [(h.complete i r).mp hm] at hd
        simp [ContinuationTask.complete] at hd
      simp only [List.mem_append, hn, List.mem_singleton, false_or, List.getElem?_set_self hi]
      cases o <;> cases r <;> simp [ContinuationTask.complete, Receiver.set, eq_comm]
    · simp [hij, h.complete j r, Ne.symm hij]
  returned := h.returned

theorem congr (h : Tracks n es p) (ht : q.tasks = p.tasks) (hs : q.started = p.started)
    (hr : q.returned = p.returned) : Tracks n es q where
  length := by rw [ht]; exact h.length
  started := by rw [hs]; exact h.started
  task := by rw [ht]; exact h.task
  complete := by rw [ht]; exact h.complete
  returned := by rw [hr, hs]; exact h.returned

/-- An event that completes no task. -/
theorem extend {e : Event ε α} (h : Tracks n es p) (hne : ∀ i o, e ≠ .complete i o) :
    Tracks n (es ++ [e]) p :=
  { h with complete := fun i o => by simp [(hne i o).symm, h.complete i o] }

theorem step {e : Event ε α} (h : Tracks n es p) (he : step c p e = some q) :
    Tracks n (es ++ [e]) q := by
  rcases step_cases he with ⟨rfl, hs, rfl⟩ | ⟨i, o, rfl, hi, hd, rfl⟩ | ⟨rfl, -, rfl⟩ |
    ⟨rfl, hs, -, rfl⟩
  · have hlt : p.started < n := by rw [← h.length]; exact hs
    exact { h.extend (by simp) with
      started := hlt
      returned := fun hr => absurd (h.returned hr) (Nat.ne_of_lt hlt) }
  · exact (h.set hi hd).congr (notify_tasks _) (notify_started _) (notify_returned _)
  · exact (h.extend (by simp)).congr rfl rfl rfl
  · have hn : p.started = n := by rw [hs, h.length]
    have : Tracks n (es ++ [.returns]) { p with returned := true } :=
      { h.extend (by simp) with returned := fun _ => hn }
    exact this.congr (awaitSuspend_tasks _) (awaitSuspend_started _) (awaitSuspend_returned _)

end Tracks

/-- Every run keeps track of its tasks. -/
theorem tracks (h : runs (step c) (suspended c n) es = some p) : Tracks n es p :=
  runs_induction .initial (fun _ _ _ _ ht he => ht.step he) h

/-- One more task is completed. -/
theorem completed_set {tasks : List (ContinuationTask ε α)}
    (hd : tasks[i]?.map (·.done) = some false) :
    completed (tasks.set i (.complete o)) = completed tasks + 1 := by
  obtain ⟨t, ht, hf⟩ := Option.map_eq_some_iff.mp hd
  obtain ⟨hi, rfl⟩ := List.getElem?_eq_some_iff.mp ht
  rw [completed, List.countP_set hi, hf]
  rfl

/-- While a task is not done, not all are. -/
theorem Tracks.completed_lt (h : Tracks n es p) (hd : p.tasks[i]?.map (·.done) = some false) :
    completed p.tasks < n := by
  obtain ⟨t, ht, hf⟩ := Option.map_eq_some_iff.mp hd
  rw [completed, ← h.length]
  refine Nat.lt_of_le_of_ne List.countP_le_length fun heq => ?_
  have := List.countP_eq_length.mp heq t (List.mem_of_getElem? ht)
  rw [hf] at this
  cases this

theorem Tracks.completed_eq_zero_iff (h : Tracks n es p) :
    completed p.tasks = 0 ↔ ∀ i o, Event.complete i o ∉ es := by
  simp only [h.complete]
  rw [completed, List.countP_eq_zero]
  constructor
  · intro hall i o ho
    exact hall _ (List.mem_of_getElem? ho) rfl
  · intro hall t ht
    obtain ⟨i, hi, rfl⟩ := List.getElem_of_mem ht
    rcases h.task i (h.length ▸ hi) with he | ⟨o, ho⟩
    · rw [(List.getElem?_eq_some_iff.mp he).2]
      simp
    · exact absurd ho (hall i o)

end Bookkeeping

end EzCpp.Async
