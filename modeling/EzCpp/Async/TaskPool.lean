import EzCpp.Async.Awaiter
import EzCpp.Lib.Runs

/-!
# The task pool

`operator<<` wraps a task into another one, which awaits it and then posts a clean-up, and posts the
start of the wrapper to the io context. A clean-up removes whatever is done.

The wrapper is the coroutine of a lambda that is a local of `operator<<`. Its frame holds no copy of
the closure, only where it was, and the closure is gone before the wrapper starts. When the task ends
with a value, the wrapper goes on and reads `this` out of the closure; the source promises nothing from
there on (`State.dangling`). When the task ends with an exception, the wrapper ends with it and posts
nothing. So no clean-up is ever posted, and a pool that has been given a task does not get empty again
(`releases_iff`).

The handlers run one at a time and in any order; the tasks complete at any time in between, also while
the handler that starts them runs.
-/

namespace EzCpp.Async.TaskPool

open EzCpp.Lib

/-- A wrapper, from `operator<<` to its final suspend point. -/
inductive Wrapper (ε : Type)
  | created
  | running
  | done (o : Outcome ε Unit)
deriving DecidableEq, Repr

def Wrapper.isDone {ε : Type} : Wrapper ε → Bool
  | .done _ => true
  | _ => false

/-- What is posted to the context. -/
inductive Handler
  | resume (i : Nat)
  | cleanup
deriving DecidableEq, Repr

structure State (ε : Type) where
  /-- the wrappers of all the tasks ever posted, by number -/
  wrappers : List (Wrapper ε) := []
  /-- `m_tasks` -/
  tasks : List Nat := []
  handlers : List Handler := []
  /-- the closures `wrap` that exist, by the number of the wrapper made with them -/
  closures : List Nat := []
  /-- a closure has been read that did not exist any more -/
  dangling : Bool := false

inductive Event (ε : Type)
  | post
  /-- the handler runs that starts the `i`-th wrapper -/
  | resume (i : Nat)
  /-- the `i`-th task is over, and its wrapper goes on -/
  | complete (i : Nat) (o : Outcome ε Unit)
  /-- a clean-up runs -/
  | cleanup
deriving DecidableEq, Repr

variable {ε : Type}

/-- Whether there is something left to do for a wrapper when its task has ended so, for which it needs
what its closure has captured. -/
def readsClosure : Outcome ε Unit → Bool
  | .value () => true
  | .exception _ => false

namespace State

/-- The locals of a function end when it returns. -/
def endLocals (p : State ε) (i : Nat) : State ε := { p with closures := p.closures.erase i }

/-- `operator<<` -/
def post (p : State ε) : State ε :=
  let i := p.wrappers.length
  let wrap : State ε := { p with closures := i :: p.closures }
  let pushed : State ε := { wrap with
    wrappers := wrap.wrappers ++ [.created]
    tasks := wrap.tasks ++ [i]
    handlers := wrap.handlers ++ [.resume i] }
  pushed.endLocals i

def done (p : State ε) (i : Nat) : Bool := p.wrappers[i]?.any Wrapper.isDone

def cleanup (p : State ε) : State ε := { p with tasks := p.tasks.filter fun i => !p.done i }

/-- What is after the `co_await` of a wrapper. -/
def afterAwait (p : State ε) (i : Nat) (o : Outcome ε Unit) : State ε :=
  if readsClosure o then
    if i ∈ p.closures then { p with handlers := p.handlers ++ [.cleanup] }
    else { p with dangling := true }
  else p

end State

/-- Nothing is known of what comes after the read of a closure that does not exist. -/
def step (p : State ε) (event : Event ε) : Option (State ε) :=
  if p.dangling then none
  else match event with
  | .post => some p.post
  | .resume i =>
    if .resume i ∈ p.handlers then
      some { p with
        handlers := p.handlers.erase (.resume i)
        wrappers := p.wrappers.set i .running }
    else none
  | .complete i o =>
    match p.wrappers[i]? with
    | some .running => some ({ p with wrappers := p.wrappers.set i (.done o) }.afterAwait i o)
    | _ => none
  | .cleanup =>
    if .cleanup ∈ p.handlers then
      some { p with handlers := p.handlers.erase .cleanup }.cleanup
    else none

/-! ## What the pool promises -/

/-- No task that is not over is removed. -/
def Keeps (p : State ε) : Prop := ∀ i < p.wrappers.length, p.done i = false → i ∈ p.tasks

/-- Every task is over, and every handler has run. -/
structure Quiet (p : State ε) : Prop where
  done : ∀ i < p.wrappers.length, p.done i = true
  handlers : p.handlers = []

/-- **What the pool promises in a run.** -/
structure Releases (es : List (Event ε)) (p : State ε) : Prop where
  /-- there is something that can be promised -/
  defined : p.dangling = false
  keeps : Throughout step Keeps {} es
  empty : Quiet p → p.tasks = []

/-! ## What is in the pool -/

section Pool

variable {es : List (Event ε)} {e : Event ε} {p q : State ε} {i : Nat} {o : Outcome ε Unit}

/-- The pool holds every task it was given, and there is no closure and no clean-up. -/
structure Tracks (es : List (Event ε)) (p : State ε) : Prop where
  closures : p.closures = []
  cleanup : .cleanup ∉ p.handlers
  tasks : p.tasks = List.range p.wrappers.length
  posted : p.wrappers = [] ↔ .post ∉ es
  dangling : p.dangling = true ↔ ∃ i, .complete i (.value ()) ∈ es

theorem tracks_initial : Tracks ([] : List (Event ε)) {} :=
  ⟨rfl, List.not_mem_nil, rfl, by simp, by simp⟩

/-- An event after which there are as many wrappers as before, and no more clean-ups. -/
theorem Tracks.keep (h : Tracks es p) (he : e ≠ .post) (hclosures : q.closures = p.closures)
    (hcleanup : .cleanup ∈ q.handlers → .cleanup ∈ p.handlers) (htasks : q.tasks = p.tasks)
    (hlength : q.wrappers.length = p.wrappers.length)
    (hdangling : q.dangling = true ↔ p.dangling = true ∨ ∃ i, e = .complete i (.value ())) :
    Tracks (es ++ [e]) q where
  closures := hclosures.trans h.closures
  cleanup hm := h.cleanup (hcleanup hm)
  tasks := by rw [htasks, hlength, h.tasks]
  posted := by
    rw [← List.length_eq_zero_iff, hlength, List.length_eq_zero_iff, h.posted]
    simp [he.symm]
  dangling := by
    rw [hdangling, h.dangling]
    simp [exists_or, eq_comm]

/-- The closure of a wrapper ends where it began. -/
theorem tracks_post (h : Tracks es p) : Tracks (es ++ [.post]) p.post where
  closures := by simp [State.post, State.endLocals, h.closures]
  cleanup := by simp [State.post, State.endLocals, h.cleanup]
  tasks := by simp [State.post, State.endLocals, h.tasks, List.range_succ]
  posted := by simp [State.post, State.endLocals]
  dangling := by simp [State.post, State.endLocals, h.dangling]

/-- No wrapper finds its closure. -/
theorem Tracks.afterAwait (h : Tracks es p) (i : Nat) (o : Outcome ε Unit) :
    p.afterAwait i o = { p with dangling := readsClosure o || p.dangling } := by
  have gone : i ∉ p.closures := by
    rw [h.closures]
    exact List.not_mem_nil
  unfold State.afterAwait
  rw [if_neg gone]
  cases readsClosure o <;> rfl

theorem readsClosure_iff : readsClosure o = true ↔ o = .value () := by
  cases o <;> simp [readsClosure]

theorem tracks_step (h : Tracks es p) (he : step p e = some q) : Tracks (es ++ [e]) q := by
  unfold step at he
  split at he
  next => cases he
  next =>
    cases e with
    | post =>
      cases he
      exact tracks_post h
    | resume i =>
      obtain ⟨hm, he⟩ := Option.ite_none_right_eq_some.mp he
      cases he
      exact h.keep nofun rfl List.mem_of_mem_erase rfl List.length_set (by simp)
    | complete i o =>
      simp only at he
      split at he
      next hrunning =>
        cases he
        have hdone : Tracks es { p with wrappers := p.wrappers.set i (.done o) } :=
          ⟨h.closures, h.cleanup, by simp [h.tasks], by simp [h.posted], h.dangling⟩
        rw [hdone.afterAwait i o]
        refine h.keep nofun rfl id rfl List.length_set ?_
        rw [Bool.or_eq_true, readsClosure_iff, or_comm]
        simp
      next => cases he
    | cleanup =>
      obtain ⟨hm, -⟩ := Option.ite_none_right_eq_some.mp he
      exact absurd hm h.cleanup

/-- **What is in the pool, in every run.** -/
theorem tracks (h : runs step {} es = some p) : Tracks es p :=
  runs_induction tracks_initial (fun _ _ _ _ hp he => tracks_step hp he) h

/-! ## The law -/

/-- Nothing is removed, whether it is over or not. -/
theorem Tracks.keeps (h : Tracks es p) : Keeps p := fun i hi _ => by
  rw [h.tasks]
  exact List.mem_range.mpr hi

theorem Tracks.tasks_eq_nil_iff (h : Tracks es p) : p.tasks = [] ↔ .post ∉ es := by
  rw [h.tasks, List.range_eq_nil, List.length_eq_zero_iff, h.posted]

/-- **A pool keeps its promises exactly in the runs in which no task ends with a value, and which do
not come to rest once a task has been posted.** -/
theorem releases_iff (h : runs step {} es = some p) :
    Releases es p ↔ (∀ i, .complete i (.value ()) ∉ es) ∧ (Quiet p → .post ∉ es) := by
  have htracks := tracks h
  have hdefined : p.dangling = false ↔ ∀ i, .complete i (.value ()) ∉ es := by
    rw [← Bool.not_eq_true, htracks.dangling, not_exists]
  constructor
  · exact fun hr => ⟨hdefined.mp hr.defined, fun hq => htracks.tasks_eq_nil_iff.mp (hr.empty hq)⟩
  · rintro ⟨hvalue, hrest⟩
    exact ⟨hdefined.mpr hvalue, fun _ _ _ _ hq => (tracks hq).keeps,
      fun hq => htracks.tasks_eq_nil_iff.mpr (hrest hq)⟩

end Pool

/-- One task ends with an exception while the other one is still running. -/
def unfinished : List (Event Unit) :=
  [.post, .post, .resume 1, .resume 0, .complete 1 (.exception ())]

theorem releases_unfinished : ∃ p, runs step {} unfinished = some p ∧ p.tasks = [0, 1] ∧
    Releases unfinished p := by
  have hrun : ∃ p, runs step {} unfinished = some p ∧ p.tasks = [0, 1] ∧ ¬ Quiet p :=
    ⟨_, rfl, rfl, fun hq => absurd (hq.done 0 (by decide)) (by decide)⟩
  obtain ⟨p, hp, htasks, hbusy⟩ := hrun
  refine ⟨p, hp, htasks, (releases_iff hp).mpr ⟨fun i hi => ?_, fun hq => absurd hq hbusy⟩⟩
  simp [unfinished] at hi

/-- A task that ends with an exception stays in the pool. -/
theorem releases_exception : ∃ p : State Unit,
    runs step {} [.post, .resume 0, .complete 0 (.exception ())] = some p ∧
      ¬ Releases [.post, .resume 0, .complete 0 (.exception ())] p := by
  refine ⟨_, rfl, fun h => ?_⟩
  cases h.empty ⟨by decide, rfl⟩

end EzCpp.Async.TaskPool
