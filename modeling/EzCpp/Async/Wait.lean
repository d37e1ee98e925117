import EzCpp.Async.Awaiter
import EzCpp.Lib.Monitor
import Mathlib.Data.Fintype.Defs

/-!
# Waiting for an awaitable

`sync_wait` starts a coroutine that awaits the awaitable, and sleeps on a `SyncWaitEvent` until that
coroutine is at its final suspend point. The coroutine is a thread of its own here: as long as it has
not returned control to `resume()` it is the caller that waits for it, and if it is suspended by then,
it is resumed from anywhere, at any time, beside the caller.

`sync_wait` returns what the awaitable gave, under every schedule (`syncWait_returns`). But the event
is on the stack of the caller, and `set` notifies after it has given the mutex back: by then the caller
may have gone, and the event with it (`notified_after_destruction`).
-/

namespace EzCpp.Async.Wait

open EzCpp.Lib EzCpp.Lib.Monitor

/-- How `co_await` goes: the coroutine is not suspended, it is resumed by someone else, or never. -/
inductive Awaitable (ε α : Type)
  | ready (o : Outcome ε α)
  | later (o : Outcome ε α)
  | never
deriving DecidableEq, Repr

inductive Party
  | caller
  | coroutine
deriving DecidableEq, Repr

instance partyFintype : Fintype Party :=
  ⟨{.caller, .coroutine}, fun p => by cases p <;> decide⟩

/-- What `sync_wait` and its coroutine share beside the flag of the event. -/
structure Frame (ε α : Type) where
  /-- the coroutine has been resumed by `start` -/
  resumed : Bool := false
  /-- and control is back from it -/
  returned : Bool := false
  receiver : Receiver ε α := .monostate
  /-- the `SyncWaitTask`, which owns the coroutine and its promise, is there -/
  task : Bool := true
  /-- the `SyncWaitEvent` is there -/
  event : Bool := true
  /-- what `sync_wait` has returned or thrown -/
  result : Option (Except (Thrown ε) α) := none
deriving DecidableEq, Repr

section Code

variable {ε α : Type}

/-- Of `SyncWaitEvent`: `m_set` under the mutex, then `notify_all`. -/
def set : Op Bool (Frame ε α) := .signal fun _ => true

def wait : Op Bool (Frame ε α) := .wait fun set => set

/-- Of `SyncWaitPromise::start`, the call of `resume()` and its return. -/
def resume : Op Bool (Frame ε α) := .act fun f => some { f with resumed := true }

def resumeReturns : Op Bool (Frame ε α) := .act fun f => if f.returned then some f else none

/-- The coroutine begins when it is resumed. -/
def begins : Op Bool (Frame ε α) := .act fun f => if f.resumed then some f else none

/-- The coroutine is suspended, and control goes back to the first `resume()`. -/
def suspends : Op Bool (Frame ε α) := .act fun f => some { f with returned := true }

/-- `return_value` or `unhandled_exception`. -/
def setValue (o : Outcome ε α) : Op Bool (Frame ε α) :=
  .act fun f => some { f with receiver := Receiver.set o }

/-- `task.get()`. -/
def get : Op Bool (Frame ε α) := .act fun f => some { f with result := some f.receiver.get }

def destroyTask : Op Bool (Frame ε α) := .act fun f => some { f with task := false }

def destroyEvent : Op Bool (Frame ε α) := .act fun f => some { f with event := false }

def syncWait : List (Op Bool (Frame ε α)) :=
  [resume, resumeReturns, wait, get, destroyTask, destroyEvent]

def makeSyncWaitTask : Awaitable ε α → List (Op Bool (Frame ε α))
  | .ready o => [begins, setValue o, set, suspends]
  | .later o => [begins, suspends, setValue o, set]
  | .never => [begins, suspends]

def start (a : Awaitable ε α) : State Party Bool (Frame ε α) :=
  Monitor.start false {} fun
    | .caller => syncWait
    | .coroutine => makeSyncWaitTask a

end Code

def Awaitable.outcome {ε α : Type} : Awaitable ε α → Option (Outcome ε α)
  | .ready o => some o
  | .later o => some o
  | .never => none

/-! ## Where the two of them are -/

inductive Kind
  | ready
  | later
  | never
deriving DecidableEq, Repr

instance kindFintype : Fintype Kind :=
  ⟨{.ready, .later, .never}, fun k => by cases k <;> decide⟩

inductive Caller
  | resume
  | resumeReturns
  | wait
  | acquiring
  | testing
  | asleep
  | passed
  | get
  | destroyTask
  | destroyEvent
  | done
deriving DecidableEq, Repr

instance callerFintype : Fintype Caller :=
  ⟨{.resume, .resumeReturns, .wait, .acquiring, .testing, .asleep, .passed, .get, .destroyTask,
    .destroyEvent, .done}, fun w => by cases w <;> decide⟩

inductive Coroutine
  | begins
  | suspends
  | setValue
  | set
  | entering
  | updating
  | leaving
  | notifying
  | done
deriving DecidableEq, Repr

instance coroutineFintype : Fintype Coroutine :=
  ⟨{.begins, .suspends, .setValue, .set, .entering, .updating, .leaving, .notifying, .done},
    fun r => by cases r <;> decide⟩

namespace Caller

/-- The caller has the mutex. -/
def holds : Caller → Bool
  | .testing | .passed => true
  | _ => false

/-- It has seen the flag. -/
def past : Caller → Bool
  | .passed | .get | .destroyTask | .destroyEvent | .done => true
  | _ => false

/-- It has control back from `start`. -/
def started : Caller → Bool
  | .resume | .resumeReturns => false
  | _ => true

def received : Caller → Bool
  | .destroyTask | .destroyEvent | .done => true
  | _ => false

def notified : Caller → Caller
  | .asleep => .acquiring
  | w => w

variable {ε α : Type}

def thread : Caller → Thread Bool (Frame ε α)
  | .resume => { todo := syncWait }
  | .resumeReturns =>
    { todo := [Wait.resumeReturns, Wait.wait, Wait.get, Wait.destroyTask, Wait.destroyEvent] }
  | .wait => { todo := [Wait.wait, Wait.get, Wait.destroyTask, Wait.destroyEvent] }
  | .acquiring => ⟨.acquiring fun set => set, [Wait.get, Wait.destroyTask, Wait.destroyEvent]⟩
  | .testing => ⟨.testing fun set => set, [Wait.get, Wait.destroyTask, Wait.destroyEvent]⟩
  | .asleep => ⟨.asleep fun set => set, [Wait.get, Wait.destroyTask, Wait.destroyEvent]⟩
  | .passed => ⟨.passed fun set => set, [Wait.get, Wait.destroyTask, Wait.destroyEvent]⟩
  | .get => { todo := [Wait.get, Wait.destroyTask, Wait.destroyEvent] }
  | .destroyTask => { todo := [Wait.destroyTask, Wait.destroyEvent] }
  | .destroyEvent => { todo := [Wait.destroyEvent] }
  | .done => { todo := [] }

end Caller

namespace Coroutine

def holds : Coroutine → Bool
  | .updating | .leaving => true
  | _ => false

variable (k : Kind)

/-- The outcome is in the promise. -/
def stored : Coroutine → Bool
  | .begins | .setValue => false
  | .suspends => k = .ready
  | .done => k ≠ .never
  | _ => true

/-- The flag is up. -/
def told : Coroutine → Bool
  | .leaving | .notifying => true
  | .suspends => k = .ready
  | .done => k ≠ .never
  | _ => false

/-- Control went back to the caller. -/
def returned : Coroutine → Bool
  | .begins | .suspends => false
  | .done => true
  | _ => k = .later

/-- Where an awaitable of this kind can get it. -/
def possible : Coroutine → Bool
  | .begins | .suspends | .done => true
  | _ => k ≠ .never

def next : Coroutine → Coroutine
  | .begins => if k = .ready then .setValue else .suspends
  | .suspends => if k = .later then .setValue else .done
  | .setValue => .set
  | .set => .entering
  | .entering => .updating
  | .updating => .leaving
  | .leaving => .notifying
  | .notifying => if k = .ready then .suspends else .done
  | .done => .done

variable {ε α : Type}

/-- What is left of it after `set`. -/
def rest : Awaitable ε α → List (Op Bool (Frame ε α))
  | .ready _ => [Wait.suspends]
  | _ => []

def thread (a : Awaitable ε α) : Coroutine → Thread Bool (Frame ε α)
  | .begins => { todo := makeSyncWaitTask a }
  | .suspends =>
    match a with
    | .later o => { todo := [Wait.suspends, Wait.setValue o, Wait.set] }
    | _ => { todo := [Wait.suspends] }
  | .setValue =>
    match a.outcome with
    | some o => { todo := Wait.setValue o :: Wait.set :: rest a }
    | none => { todo := [] }
  | .set => { todo := Wait.set :: rest a }
  | .entering => ⟨.entering fun _ => true, rest a⟩
  | .updating => ⟨.updating fun _ => true, rest a⟩
  | .leaving => ⟨.leaving, rest a⟩
  | .notifying => ⟨.notifying, rest a⟩
  | .done => { todo := [] }

end Coroutine

namespace Caller

/-- Where the caller goes from here, if it can. -/
def next (k : Kind) (r : Coroutine) : Caller → Option Caller
  | .resume => some .resumeReturns
  | .resumeReturns => if r.returned k then some .wait else none
  | .wait => some .acquiring
  | .acquiring => if r.holds then none else some .testing
  | .testing => if r.told k then some .passed else some .asleep
  | .asleep => none
  | .passed => some .get
  | .get => some .destroyTask
  | .destroyTask => some .destroyEvent
  | .destroyEvent => some .done
  | .done => none

end Caller

/-- What keeps the coroutine from going on. -/
def Coroutine.blocked (w : Caller) : Coroutine → Bool
  | .begins => w = .resume
  | .entering => w.holds
  | .done => true
  | _ => false

/-- The places that go together. -/
def together (k : Kind) (w : Caller) (r : Coroutine) : Bool :=
  r.possible k && !(w.holds && r.holds) && (w ≠ .resume || r = .begins) &&
    (!w.started || r.returned k) && (!w.past || r.told k && !r.holds)

theorem together_caller : ∀ (k : Kind) (w w' : Caller) (r : Coroutine), together k w r = true →
    w.next k r = some w' → together k w' r = true := by
  decide

theorem together_coroutine : ∀ (k : Kind) (w : Caller) (r : Coroutine), together k w r = true →
    r.blocked w = false → together k (if r = .notifying then w.notified else w) (r.next k) = true := by
  decide

/-- The caller, awake again, is where it was before it tested. -/
theorem together_wake : ∀ (k : Kind) (r : Coroutine), together k .asleep r = true →
    together k .acquiring r = true := by
  decide

section Config

variable {ε α : Type} {a : Awaitable ε α} {w w' : Caller} {r r' : Coroutine}
  {s s' : State Party Bool (Frame ε α)}

def Awaitable.kind : Awaitable ε α → Kind
  | .ready _ => .ready
  | .later _ => .later
  | .never => .never

/-- What the promise holds by then. -/
def stored (a : Awaitable ε α) (r : Coroutine) : Receiver ε α :=
  match a.outcome with
  | some o => if r.stored a.kind then .set o else .monostate
  | none => .monostate

/-- The state in which they are there. -/
def config (a : Awaitable ε α) (w : Caller) (r : Coroutine) : State Party Bool (Frame ε α) where
  data := r.told a.kind
  rest :=
    { resumed := w ≠ .resume
      returned := r.returned a.kind
      receiver := stored a r
      task := !(w = .destroyEvent || w = .done)
      event := !(w = .done)
      result := if w.received then a.outcome.map fun o => (Receiver.set o).get else none }
  owner := if w.holds then some .caller else if r.holds then some .coroutine else none
  threads
    | .caller => w.thread
    | .coroutine => r.thread a

theorem config_ext (hd : s.data = s'.data) (he : s.rest = s'.rest) (ho : s.owner = s'.owner)
    (hw : s.threads .caller = s'.threads .caller)
    (hr : s.threads .coroutine = s'.threads .coroutine) : s = s' := by
  obtain ⟨data, rest, owner, threads⟩ := s
  obtain ⟨data', rest', owner', threads'⟩ := s'
  obtain rfl : threads = threads' := by
    funext p
    cases p
    · exact hw
    · exact hr
  cases hd
  cases he
  cases ho
  rfl

theorem start_config (a : Awaitable ε α) : start a = config a .resume .begins := by
  refine config_ext ?_ ?_ ?_ rfl rfl <;> cases a <;> rfl

theorem together_start (a : Awaitable ε α) : together a.kind .resume .begins = true := by
  cases a <;> rfl

/-! ## The two levels agree -/

theorem alone : ∀ (k : Kind) (w : Caller) (r : Coroutine), together k w r = true →
    (w.holds = true → r.holds = false) ∧ (r.holds = true → w.holds = false) := by
  decide

theorem stored_of_told (h : together a.kind w r = true) (ht : r.told a.kind = true) :
    some (stored a r).get = a.outcome.map fun o => (Receiver.set o).get := by
  cases a with
  | ready o => cases r <;> first | rfl | cases ht
  | later o => cases r <;> first | rfl | cases ht
  | never => cases r <;> first | cases h | cases ht

theorem told_of_past : ∀ (k : Kind) (w : Caller) (r : Coroutine), together k w r = true →
    w.past = true → r.told k = true := by
  decide

section Set

theorem coroutine_ne : Party.coroutine ≠ .caller := nofun

variable {d : Bool} {e : Frame ε α} {o : Option Party}

theorem set_caller (w' : Caller) (hd : d = (config a w' r).data) (he : e = (config a w' r).rest)
    (ho : o = (config a w' r).owner) :
    State.mk d e o ((config a w r).set .caller w'.thread).threads = config a w' r := by
  have hself : ((config a w r).set .caller w'.thread).threads .caller = w'.thread := set_self _
  have hother : ((config a w r).set .caller w'.thread).threads .coroutine = r.thread a :=
    set_of_ne coroutine_ne _
  exact config_ext hd he ho hself hother

theorem set_coroutine (r' : Coroutine) (hd : d = (config a w r').data)
    (he : e = (config a w r').rest) (ho : o = (config a w r').owner) :
    State.mk d e o ((config a w r).set .coroutine (r'.thread a)).threads = config a w r' := by
  have hself : ((config a w r).set .coroutine (r'.thread a)).threads .coroutine = r'.thread a :=
    set_self _
  have hother : ((config a w r).set .coroutine (r'.thread a)).threads .caller = w.thread :=
    set_of_ne coroutine_ne.symm _
  exact config_ext hd he ho hother hself

theorem notified_thread (w : Caller) :
    (w.thread : Thread Bool (Frame ε α)).notified = w.notified.thread := by
  cases w <;> rfl

theorem notify_coroutine (r' : Coroutine) (hd : d = (config a w r').data)
    (he : e = (config a w r').rest) (ho : o = (config a w r').owner) :
    State.mk d e o ((config a w r).notifyAll.set .coroutine (r'.thread a)).threads =
      config a w.notified r' := by
  have hself : ((config a w r).notifyAll.set .coroutine (r'.thread a)).threads .coroutine =
      r'.thread a := set_self _
  have hother : ((config a w r).notifyAll.set .coroutine (r'.thread a)).threads .caller =
      w.thread.notified := set_of_ne coroutine_ne.symm _
  refine config_ext hd (he.trans ?_) (ho.trans ?_) (hother.trans (notified_thread w)) hself
  · cases w <;> rfl
  · cases w <;> rfl

end Set

theorem config_caller (h : together a.kind w r = true)
    (hs : advance (config a w r) .caller = some s') :
    ∃ w', w.next a.kind r = some w' ∧ s' = config a w' r := by
  have howner : w.holds = true → none = (if r.holds then some Party.coroutine else none) :=
    fun hw => (if_neg (Bool.eq_false_iff.mp ((alone _ _ _ h).1 hw))).symm
  cases w with
  | resume =>
    exact ⟨.resumeReturns, rfl, (Option.some.inj hs).symm.trans (set_caller .resumeReturns rfl rfl rfl)⟩
  | resumeReturns =>
    obtain ⟨e, he, rfl⟩ := Option.map_eq_some_iff.mp hs
    obtain ⟨hreturned, he⟩ := Option.ite_none_right_eq_some.mp he
    cases he
    exact ⟨.wait, if_pos hreturned, set_caller .wait rfl rfl rfl⟩
  | wait => exact ⟨.acquiring, rfl, (Option.some.inj hs).symm.trans (set_caller .acquiring rfl rfl rfl)⟩
  | acquiring =>
    obtain ⟨ho, hs⟩ := Option.ite_none_right_eq_some.mp hs
    have hr : ¬ r.holds = true := fun hr => by
      rw [show (config a .acquiring r).owner = some .coroutine from if_pos hr] at ho
      cases ho
    exact ⟨.testing, if_neg hr, (Option.some.inj hs).symm.trans (set_caller .testing rfl rfl rfl)⟩
  | testing =>
    by_cases ht : r.told a.kind = true
    · have hs := (if_pos ht).symm.trans hs
      exact ⟨.passed, if_pos ht, (Option.some.inj hs).symm.trans (set_caller .passed rfl rfl rfl)⟩
    · have hs := (if_neg ht).symm.trans hs
      exact ⟨.asleep, if_neg ht,
        (Option.some.inj hs).symm.trans (set_caller .asleep rfl rfl (howner rfl))⟩
  | asleep => cases hs
  | passed =>
    exact ⟨.get, rfl, (Option.some.inj hs).symm.trans (set_caller .get rfl rfl (howner rfl))⟩
  | get =>
    have hresult := stored_of_told h (told_of_past _ _ _ h rfl)
    refine ⟨.destroyTask, rfl, (Option.some.inj hs).symm.trans (set_caller .destroyTask rfl ?_ rfl)⟩
    exact congrArg (fun result => { (config a .get r).rest with result }) hresult
  | destroyTask =>
    exact ⟨.destroyEvent, rfl, (Option.some.inj hs).symm.trans (set_caller .destroyEvent rfl rfl rfl)⟩
  | destroyEvent => exact ⟨.done, rfl, (Option.some.inj hs).symm.trans (set_caller .done rfl rfl rfl)⟩
  | done => cases hs

theorem config_coroutine (h : together a.kind w r = true)
    (hs : advance (config a w r) .coroutine = some s') :
    r.blocked w = false ∧
      s' = config a (if r = .notifying then w.notified else w) (r.next a.kind) := by
  have hw : r.holds = true → w.holds = false := (alone _ _ _ h).2
  cases r with
  | begins =>
    have hresumed : ∃ f, (if decide (w ≠ .resume) = true then some (config a w .begins).rest else none) =
        some f ∧ s' = { (config a w .begins).set .coroutine ((Coroutine.begins.next a.kind).thread a) with
          rest := f } := by
      cases a <;>
      · obtain ⟨e, he, rfl⟩ := Option.map_eq_some_iff.mp hs
        exact ⟨e, he, rfl⟩
    obtain ⟨e, he, rfl⟩ := hresumed
    obtain ⟨hresumed, he⟩ := Option.ite_none_right_eq_some.mp he
    cases he
    refine ⟨decide_eq_false (of_decide_eq_true hresumed), set_coroutine _ ?_ ?_ ?_⟩ <;> cases a <;> rfl
  | suspends =>
    cases a with
    | later o => exact ⟨rfl, (Option.some.inj hs).symm.trans (set_coroutine .setValue rfl rfl rfl)⟩
    | _ => exact ⟨rfl, (Option.some.inj hs).symm.trans (set_coroutine .done rfl rfl rfl)⟩
  | setValue =>
    cases a with
    | never => cases h
    | _ => exact ⟨rfl, (Option.some.inj hs).symm.trans (set_coroutine .set rfl rfl rfl)⟩
  | set => exact ⟨rfl, (Option.some.inj hs).symm.trans (set_coroutine .entering rfl rfl rfl)⟩
  | entering =>
    obtain ⟨ho, hs⟩ := Option.ite_none_right_eq_some.mp hs
    have hw : w.holds = false := Bool.eq_false_iff.mpr fun hw => by
      rw [show (config a w .entering).owner = some .caller from if_pos hw] at ho
      cases ho
    have howner : some .coroutine = (config a w .updating).owner :=
      (if_neg (Bool.eq_false_iff.mp hw)).symm
    exact ⟨hw, (Option.some.inj hs).symm.trans (set_coroutine .updating rfl rfl howner)⟩
  | updating => exact ⟨rfl, (Option.some.inj hs).symm.trans (set_coroutine .leaving rfl rfl rfl)⟩
  | leaving =>
    have howner : none = (config a w .notifying).owner :=
      (if_neg (Bool.eq_false_iff.mp (hw rfl))).symm
    exact ⟨rfl, (Option.some.inj hs).symm.trans (set_coroutine .notifying rfl rfl howner)⟩
  | notifying =>
    cases a with
    | ready o =>
      exact ⟨rfl, (Option.some.inj hs).symm.trans (notify_coroutine .suspends rfl rfl rfl)⟩
    | later o => exact ⟨rfl, (Option.some.inj hs).symm.trans (notify_coroutine .done rfl rfl rfl)⟩
    | never => cases h
  | done => cases a <;> cases hs

/-! ## Where a place is read off the thread -/

theorem asleep_caller {p : Bool → Bool} {todo : List (Op Bool (Frame ε α))}
    (h : w.thread = ⟨.asleep p, todo⟩) :
    w = .asleep ∧ Thread.mk (.acquiring p) todo = Caller.acquiring.thread := by
  cases w with
  | asleep =>
    cases h
    exact ⟨rfl, rfl⟩
  | _ => cases h

theorem not_asleep_coroutine {p : Bool → Bool} : (r.thread a).phase ≠ .asleep p := by
  cases r <;> cases a <;> nofun

theorem done_caller (h : w.thread = (⟨.idle, []⟩ : Thread Bool (Frame ε α))) : w = .done := by
  cases w with
  | done => rfl
  | _ => cases h

theorem blocked_caller {f : Frame ε α → Option (Frame ε α)} {todo : List (Op Bool (Frame ε α))}
    (h : w.thread = ⟨.idle, .act f :: todo⟩) (hf : f (config a w r).rest = none) :
    w = .resumeReturns ∧ r.returned a.kind = false := by
  cases w with
  | resumeReturns =>
    cases h
    refine ⟨rfl, Bool.eq_false_iff.mpr fun hr => ?_⟩
    cases (if_pos hr).symm.trans hf
  | resume => cases h; cases hf
  | get => cases h; cases hf
  | destroyTask => cases h; cases hf
  | destroyEvent => cases h; cases hf
  | _ => cases h

theorem done_coroutine (h : together a.kind w r = true) (hr : r.thread a = ⟨.idle, []⟩) : r = .done := by
  cases r with
  | done => rfl
  | setValue =>
    cases a with
    | never => cases h
    | _ => cases hr
  | _ => cases a <;> cases hr

theorem blocked_coroutine {f : Frame ε α → Option (Frame ε α)} {todo : List (Op Bool (Frame ε α))}
    (h : r.thread a = ⟨.idle, .act f :: todo⟩) (hf : f (config a w r).rest = none) :
    r = .begins ∧ w = .resume := by
  cases r with
  | begins =>
    refine ⟨rfl, of_not_not fun hw => ?_⟩
    have hresumed : (config a w .begins).rest.resumed = true := decide_eq_true hw
    cases a <;>
    · cases h
      cases (if_pos hresumed).symm.trans hf
  | suspends => cases a <;> · cases h; cases hf
  | setValue =>
    cases a with
    | never => cases h
    | _ => cases h; cases hf
  | _ => cases a <;> cases h

theorem config_wake {p : Party} (hs : wake (config a w r) p = some s') :
    w = .asleep ∧ s' = config a .acquiring r := by
  obtain ⟨q, todo, ht, rfl⟩ := wake_cases hs
  cases p with
  | caller =>
    obtain ⟨rfl, hthread⟩ := asleep_caller ht
    rw [hthread]
    exact ⟨rfl, set_caller .acquiring rfl rfl rfl⟩
  | coroutine =>
    have hphase : (r.thread a).phase = .asleep q := congrArg Thread.phase ht
    exact absurd hphase not_asleep_coroutine

/-! ## Every schedule -/

theorem config_step {e : Monitor.Event Party} (h : together a.kind w r = true)
    (hs : Monitor.step (config a w r) e = some s') :
    ∃ w' r', together a.kind w' r' = true ∧ s' = config a w' r' := by
  cases e with
  | advance p =>
    cases p with
    | caller =>
      obtain ⟨w', hw, rfl⟩ := config_caller h hs
      exact ⟨w', r, together_caller _ _ _ _ h hw, rfl⟩
    | coroutine =>
      obtain ⟨hr, rfl⟩ := config_coroutine h hs
      exact ⟨_, _, together_coroutine _ _ _ h hr, rfl⟩
  | wake p =>
    obtain ⟨rfl, rfl⟩ := config_wake hs
    exact ⟨.acquiring, r, together_wake _ _ h, rfl⟩

variable {es : List (Monitor.Event Party)} {s : State Party Bool (Frame ε α)}

theorem config_of_runs (h : runs Monitor.step (start a) es = some s) :
    ∃ w r, together a.kind w r = true ∧ s = config a w r := by
  refine runs_invariant (P := fun s => ∃ w r, together a.kind w r = true ∧ s = config a w r) ?_ h
    ⟨.resume, .begins, together_start a, start_config a⟩
  rintro s e s' ⟨w, r, htogether, rfl⟩ hs
  exact config_step htogether hs

/-- Where nobody can go on, the caller has returned, or there is nothing to return. -/
theorem stuck_config (h : together a.kind w r = true) (hs : Sound (config a w r))
    (hstuck : ∀ p, advance (config a w r) p = none) : w = .done ∨ w = .asleep ∧ a.kind = .never := by
  have hcoroutine : r = .done ∨ r = .begins ∧ w = .resume := by
    rcases hs.stuck hstuck .coroutine with hr | ⟨f, todo, hr, hf⟩ | ⟨p, todo, hr, -⟩
    · exact .inl (done_coroutine h hr)
    · exact .inr (blocked_coroutine hr hf)
    · exact absurd (congrArg Thread.phase hr) not_asleep_coroutine
  rcases hs.stuck hstuck .caller with hw | ⟨f, todo, hw, hf⟩ | ⟨p, todo, hw, hp⟩
  · exact .inl (done_caller hw)
  · obtain ⟨rfl, hreturned⟩ := blocked_caller hw hf
    rcases hcoroutine with rfl | ⟨-, hw⟩
    · cases hreturned
    · cases hw
  · obtain ⟨rfl, hthread⟩ := asleep_caller hw
    rcases hcoroutine with rfl | ⟨-, hw⟩
    · cases hthread
      exact .inr ⟨rfl, of_not_not fun hk => Bool.eq_false_iff.mp hp (decide_eq_true hk)⟩
    · cases hw

theorem cost_start (a : Awaitable ε α) : (start a).cost ≤ 21 := by
  cases a with
  | never =>
    have hcost : (start (.never : Awaitable ε α)).cost = 11 := rfl
    omega
  | _ => exact Nat.le_of_eq rfl

/-- **`sync_wait` returns what the awaitable gave**: nothing else under any schedule, however often it
is woken for no reason; and a schedule that cannot go on has come to that, or the awaitable gives
nothing. Every schedule ends, but for the times the caller is woken for no reason. -/
theorem syncWait_returns (a : Awaitable ε α) (h : runs Monitor.step (start a) es = some s) :
    (∀ x, s.rest.result = some x → ∃ o, a.outcome = some o ∧ x = (Receiver.set o).get) ∧
    ((∀ p, advance s p = none) → s.rest.result = a.outcome.map fun o => (Receiver.set o).get) ∧
    es.length ≤ 21 + 3 * es.countP Monitor.Event.isWake := by
  have hsound : Sound s := sound_of_runs h (sound_start ..)
  have hcost := length_le_cost h
  have hstart := cost_start a
  obtain ⟨w, r, htogether, rfl⟩ := config_of_runs h
  refine ⟨fun x hx => ?_, fun hstuck => ?_, by omega⟩
  · obtain ⟨-, hx⟩ := Option.ite_none_right_eq_some.mp hx
    obtain ⟨o, ho, rfl⟩ := Option.map_eq_some_iff.mp hx
    exact ⟨o, ho, rfl⟩
  · rcases stuck_config htogether hsound hstuck with rfl | ⟨rfl, hnever⟩
    · rfl
    · cases a with
      | never => rfl
      | _ => cases hnever

/-! ## The life of the event -/

/-- The caller sleeps, wakes up for no reason and acquires the mutex once the flag is up; it has gone
before everyone is notified. -/
def overtaking : List (Monitor.Event Party) :=
  [.advance .caller, .advance .coroutine, .advance .coroutine, .advance .caller, .advance .caller,
    .advance .caller, .advance .caller, .advance .coroutine, .advance .coroutine, .wake .caller,
    .advance .coroutine, .advance .coroutine, .advance .coroutine, .advance .caller, .advance .caller,
    .advance .caller, .advance .caller, .advance .caller, .advance .caller]

theorem overtaken : ∀ (k : Kind) (w : Caller) (r : Coroutine), together k w r = true →
    w = .destroyEvent ∨ w = .done → r = .done ∨ k = .later ∧ r = .notifying := by
  decide

/-- **Only the notification can come too late.** Once the coroutine or the event has been destroyed,
nothing is left of the coroutine but `notify_all`, on that event; and there is a schedule in which it
is left if and only if the coroutine was resumed by someone else. -/
theorem notified_after_destruction (a : Awaitable ε α) :
    (∀ es s, runs Monitor.step (start a) es = some s → s.rest.task = false ∨ s.rest.event = false →
      s.threads .coroutine = ⟨.idle, []⟩ ∨
        (∃ o, a = .later o) ∧ s.threads .coroutine = ⟨.notifying, []⟩) ∧
    ((∃ es s, runs Monitor.step (start a) es = some s ∧ s.rest.event = false ∧
      (s.threads .coroutine).phase = .notifying) ↔ ∃ o, a = .later o) := by
  have hleft : ∀ es s, runs Monitor.step (start a) es = some s →
      s.rest.task = false ∨ s.rest.event = false →
      s.threads .coroutine = ⟨.idle, []⟩ ∨
        (∃ o, a = .later o) ∧ s.threads .coroutine = ⟨.notifying, []⟩ := by
    intro es s h hs
    obtain ⟨w, r, htogether, rfl⟩ := config_of_runs h
    have hw : w = .destroyEvent ∨ w = .done := by
      cases w <;> simp [config] at hs ⊢
    rcases overtaken _ _ _ htogether hw with rfl | ⟨hk, rfl⟩
    · exact .inl rfl
    · cases a with
      | later o => exact .inr ⟨⟨o, rfl⟩, rfl⟩
      | _ => cases hk
  refine ⟨hleft, ?_, ?_⟩
  · rintro ⟨es, s, h, hevent, hphase⟩
    rcases hleft es s h (.inr hevent) with hidle | ⟨hlater, -⟩
    · rw [hidle] at hphase
      cases hphase
    · exact hlater
  · rintro ⟨o, rfl⟩
    exact ⟨overtaking, _, rfl, rfl, rfl⟩

end Config

theorem syncWait_overtaking : ∃ s, runs Monitor.step (start (.later (.value 3) : Awaitable Unit Nat))
    (overtaking ++ [.advance .coroutine]) = some s ∧ s.rest.result = some (.ok 3) := by
  have h : runs Monitor.step (start (.later (.value 3) : Awaitable Unit Nat))
      (overtaking ++ [.advance .coroutine]) = some _ := rfl
  exact ⟨_, h, (syncWait_returns _ h).2.1 fun p => by cases p <;> rfl⟩

theorem notified_later : ∃ es s, runs Monitor.step (start (.later (.value 3) : Awaitable Unit Nat)) es =
    some s ∧ s.rest.event = false ∧ (s.threads .coroutine).phase = .notifying :=
  (notified_after_destruction _).2.mpr ⟨.value 3, rfl⟩

end EzCpp.Async.Wait
