import EzCpp.Lib.Runs
import Mathlib.Algebra.BigOperators.Group.Finset.Basic
import Mathlib.Algebra.Order.BigOperators.Group.Finset
import Mathlib.Data.Fintype.Card

/-!
# Monitors

Threads share data under one mutex with one condition variable. A thread signals, that is, it changes
the data under the mutex and then notifies everyone, or it waits until a predicate of the data holds:
as long as it does not, the thread gives the mutex back and sleeps. In between it acts on what is not
under the mutex. A sleeping thread is woken by a notification, or for no reason at all.

Whoever sleeps while its predicate holds is about to be notified (`Sound.told`), a schedule can only
get stuck on predicates that do not hold (`Sound.stuck`), and it is finite unless threads go on being
woken for no reason (`length_le_cost`).
-/

namespace EzCpp.Lib.Monitor

inductive Op (σ ω : Type)
  /-- outside the mutex, as soon as it is possible -/
  | act (f : ω → Option ω)
  | signal (f : σ → σ)
  | wait (p : σ → Bool)

/-- What a thread is at. It has the mutex while it is updating, leaving, testing or passed. -/
inductive Phase (σ : Type)
  | idle
  | entering (f : σ → σ)
  | updating (f : σ → σ)
  | leaving
  /-- past the mutex, with `notify_all` ahead -/
  | notifying
  | acquiring (p : σ → Bool)
  | testing (p : σ → Bool)
  | asleep (p : σ → Bool)
  | passed (p : σ → Bool)

namespace Phase

variable {σ : Type}

def holds : Phase σ → Bool
  | .updating _ | .leaving | .testing _ | .passed _ => true
  | _ => false

/-- The thread has changed the data and nobody knows. -/
def tells : Phase σ → Bool
  | .leaving | .notifying => true
  | _ => false

end Phase

structure Thread (σ ω : Type) where
  phase : Phase σ := .idle
  todo : List (Op σ ω)

structure State (ι σ ω : Type) where
  /-- what the mutex protects -/
  data : σ
  /-- and the rest -/
  rest : ω
  owner : Option ι := none
  threads : ι → Thread σ ω

inductive Event (ι : Type)
  | advance (t : ι)
  /-- the thread wakes up unnotified -/
  | wake (t : ι)
deriving DecidableEq, Repr

variable {ι σ ω : Type} {s s' : State ι σ ω} {t u : ι} {th : Thread σ ω} {p : σ → Bool}

/-! ## The machine -/

/-- What `notify_all` makes of a thread. -/
def Thread.notified : Thread σ ω → Thread σ ω
  | ⟨.asleep p, todo⟩ => ⟨.acquiring p, todo⟩
  | th => th

def State.notifyAll (s : State ι σ ω) : State ι σ ω :=
  { s with threads := fun t => (s.threads t).notified }

/-- Everybody is about to begin. -/
def start (data : σ) (rest : ω) (todo : ι → List (Op σ ω)) : State ι σ ω where
  data := data
  rest := rest
  threads t := { todo := todo t }

section Machine

variable [DecidableEq ι]

def State.set (s : State ι σ ω) (t : ι) (th : Thread σ ω) : State ι σ ω :=
  { s with threads := Function.update s.threads t th }

@[simp] theorem set_self (th : Thread σ ω) : (s.set t th).threads t = th := Function.update_self ..

@[simp] theorem set_of_ne (h : u ≠ t) (th : Thread σ ω) : (s.set t th).threads u = s.threads u :=
  Function.update_of_ne h ..

/-- The next step of a thread; there is none where it has finished, sleeps or must wait. -/
def advance (s : State ι σ ω) (t : ι) : Option (State ι σ ω) :=
  match s.threads t with
  | ⟨.idle, []⟩ => none
  | ⟨.idle, .act f :: todo⟩ => (f s.rest).map fun e => { s.set t ⟨.idle, todo⟩ with rest := e }
  | ⟨.idle, .signal f :: todo⟩ => some (s.set t ⟨.entering f, todo⟩)
  | ⟨.idle, .wait p :: todo⟩ => some (s.set t ⟨.acquiring p, todo⟩)
  | ⟨.entering f, todo⟩ =>
    if s.owner = none then some { s.set t ⟨.updating f, todo⟩ with owner := some t } else none
  | ⟨.updating f, todo⟩ => some { s.set t ⟨.leaving, todo⟩ with data := f s.data }
  | ⟨.leaving, todo⟩ => some { s.set t ⟨.notifying, todo⟩ with owner := none }
  | ⟨.notifying, todo⟩ => some (s.notifyAll.set t ⟨.idle, todo⟩)
  | ⟨.acquiring p, todo⟩ =>
    if s.owner = none then some { s.set t ⟨.testing p, todo⟩ with owner := some t } else none
  | ⟨.testing p, todo⟩ =>
    if p s.data then some (s.set t ⟨.passed p, todo⟩)
    else some { s.set t ⟨.asleep p, todo⟩ with owner := none }
  | ⟨.asleep _, _⟩ => none
  | ⟨.passed _, todo⟩ => some { s.set t ⟨.idle, todo⟩ with owner := none }

def wake (s : State ι σ ω) (t : ι) : Option (State ι σ ω) :=
  match s.threads t with
  | ⟨.asleep p, todo⟩ => some (s.set t ⟨.acquiring p, todo⟩)
  | _ => none

def step (s : State ι σ ω) : Event ι → Option (State ι σ ω)
  | .advance t => advance s t
  | .wake t => wake s t

/-! ## What one step does -/

/-- The steps of a thread, by what it is at. -/
inductive Moves (s : State ι σ ω) (t : ι) : State ι σ ω → Prop
  | act (f : ω → Option ω) (todo : List (Op σ ω)) (e : ω) (h : s.threads t = ⟨.idle, .act f :: todo⟩)
      (he : f s.rest = some e) : Moves s t { s.set t ⟨.idle, todo⟩ with rest := e }
  | signal (f : σ → σ) (todo : List (Op σ ω)) (h : s.threads t = ⟨.idle, .signal f :: todo⟩) :
      Moves s t (s.set t ⟨.entering f, todo⟩)
  | wait (p : σ → Bool) (todo : List (Op σ ω)) (h : s.threads t = ⟨.idle, .wait p :: todo⟩) :
      Moves s t (s.set t ⟨.acquiring p, todo⟩)
  | enter (f : σ → σ) (todo : List (Op σ ω)) (h : s.threads t = ⟨.entering f, todo⟩)
      (ho : s.owner = none) : Moves s t { s.set t ⟨.updating f, todo⟩ with owner := some t }
  | update (f : σ → σ) (todo : List (Op σ ω)) (h : s.threads t = ⟨.updating f, todo⟩) :
      Moves s t { s.set t ⟨.leaving, todo⟩ with data := f s.data }
  | leave (todo : List (Op σ ω)) (h : s.threads t = ⟨.leaving, todo⟩) :
      Moves s t { s.set t ⟨.notifying, todo⟩ with owner := none }
  | notify (todo : List (Op σ ω)) (h : s.threads t = ⟨.notifying, todo⟩) :
      Moves s t (s.notifyAll.set t ⟨.idle, todo⟩)
  | acquire (p : σ → Bool) (todo : List (Op σ ω)) (h : s.threads t = ⟨.acquiring p, todo⟩)
      (ho : s.owner = none) : Moves s t { s.set t ⟨.testing p, todo⟩ with owner := some t }
  | pass (p : σ → Bool) (todo : List (Op σ ω)) (h : s.threads t = ⟨.testing p, todo⟩)
      (hp : p s.data = true) : Moves s t (s.set t ⟨.passed p, todo⟩)
  | sleep (p : σ → Bool) (todo : List (Op σ ω)) (h : s.threads t = ⟨.testing p, todo⟩)
      (hp : p s.data = false) : Moves s t { s.set t ⟨.asleep p, todo⟩ with owner := none }
  | unlock (p : σ → Bool) (todo : List (Op σ ω)) (h : s.threads t = ⟨.passed p, todo⟩) :
      Moves s t { s.set t ⟨.idle, todo⟩ with owner := none }

theorem moves_of_advance (h : advance s t = some s') : Moves s t s' := by
  unfold advance at h
  split at h
  · cases h
  next f todo ht =>
    obtain ⟨e, he, rfl⟩ := Option.map_eq_some_iff.mp h
    exact .act f todo e ht he
  next f todo ht =>
    cases h
    exact .signal f todo ht
  next p todo ht =>
    cases h
    exact .wait p todo ht
  next f todo ht =>
    split at h
    next ho =>
      cases h
      exact .enter f todo ht ho
    · cases h
  next f todo ht =>
    cases h
    exact .update f todo ht
  next todo ht =>
    cases h
    exact .leave todo ht
  next todo ht =>
    cases h
    exact .notify todo ht
  next p todo ht =>
    split at h
    next ho =>
      cases h
      exact .acquire p todo ht ho
    · cases h
  next p todo ht =>
    split at h
    next hp =>
      cases h
      exact .pass p todo ht hp
    next hp =>
      cases h
      exact .sleep p todo ht (Bool.eq_false_iff.mpr hp)
  · cases h
  next p todo ht =>
    cases h
    exact .unlock p todo ht

theorem wake_cases (h : wake s t = some s') :
    ∃ p todo, s.threads t = ⟨.asleep p, todo⟩ ∧ s' = s.set t ⟨.acquiring p, todo⟩ := by
  unfold wake at h
  split at h
  next p todo ht => exact ⟨p, todo, ht, (Option.some.inj h).symm⟩
  · cases h

/-- What keeps a thread from going on. -/
theorem advance_none (h : advance s t = none) :
    s.threads t = ⟨.idle, []⟩ ∨ (∃ f todo, s.threads t = ⟨.idle, .act f :: todo⟩ ∧ f s.rest = none) ∨
      (∃ p todo, s.threads t = ⟨.asleep p, todo⟩) ∨
      s.owner ≠ none ∧ (s.threads t).phase.holds = false ∧ (s.threads t).phase.tells = false := by
  unfold advance at h
  split at h
  next ht => exact .inl ht
  next f todo ht => exact .inr (.inl ⟨f, todo, ht, Option.map_eq_none_iff.mp h⟩)
  all_goals try cases h
  next f todo ht =>
    split at h
    · cases h
    next ho => exact .inr (.inr (.inr ⟨ho, by rw [ht]; exact ⟨rfl, rfl⟩⟩))
  next p todo ht =>
    split at h
    · cases h
    next ho => exact .inr (.inr (.inr ⟨ho, by rw [ht]; exact ⟨rfl, rfl⟩⟩))
  next p todo ht =>
    split at h <;> cases h
  next p todo ht => exact .inr (.inr (.inl ⟨p, todo, ht⟩))

end Machine

/-! ## No notification is lost -/

/-- What holds between two steps. -/
structure Sound (s : State ι σ ω) : Prop where
  owner : ∀ t, s.owner = some t ↔ (s.threads t).phase.holds = true
  told : ∀ t p, (s.threads t).phase = .asleep p → p s.data = true →
    ∃ u, (s.threads u).phase.tells = true
  passed : ∀ t p, (s.threads t).phase = .passed p → p s.data = true

theorem sound_start (data : σ) (rest : ω) (todo : ι → List (Op σ ω)) :
    Sound (start data rest todo) where
  owner _ := ⟨nofun, nofun⟩
  told _ _ := nofun
  passed _ _ := nofun

theorem notified_holds (th : Thread σ ω) : th.notified.phase.holds = th.phase.holds := by
  unfold Thread.notified
  split <;> rfl

theorem notified_phase {q : Phase σ} (h : th.notified.phase = q) (hq : ∀ p, q ≠ .acquiring p) :
    th.phase = q ∧ ∀ p, q ≠ .asleep p := by
  unfold Thread.notified at h
  split at h
  next p _ => exact absurd h.symm (hq p)
  next hne =>
    refine ⟨h, fun p hp => ?_⟩
    exact hne p th.todo (by rw [← hp, ← h])

namespace Sound

/-- Mutual exclusion. -/
theorem eq_of_holds (h : Sound s) (ht : (s.threads t).phase.holds = true)
    (hu : (s.threads u).phase.holds = true) : u = t :=
  Option.some.inj (((h.owner u).mpr hu).symm.trans ((h.owner t).mpr ht))

section Moves

variable [DecidableEq ι]

/-! The mutex, when it stays where it is, is taken and is given back. -/

theorem owner_keep (h : Sound s) (hth : th.phase.holds = (s.threads t).phase.holds) (u : ι) :
    s.owner = some u ↔ ((s.set t th).threads u).phase.holds = true := by
  rcases eq_or_ne u t with rfl | hu
  · rw [set_self, hth, h.owner]
  · rw [set_of_ne hu, h.owner]

theorem owner_take (h : Sound s) (ho : s.owner = none) (hth : th.phase.holds = true) (u : ι) :
    some t = some u ↔ ((s.set t th).threads u).phase.holds = true := by
  rcases eq_or_ne u t with rfl | hu
  · rw [set_self, hth, eq_self, eq_self]
  · rw [set_of_ne hu, ← h.owner, ho, Option.some.injEq]
    exact ⟨fun heq => absurd heq.symm hu, nofun⟩

theorem owner_release (h : Sound s) (ht : (s.threads t).phase.holds = true)
    (hth : th.phase.holds = false) (u : ι) :
    none = some u ↔ ((s.set t th).threads u).phase.holds = true := by
  refine ⟨nofun, fun hu => ?_⟩
  rcases eq_or_ne u t with rfl | hne
  · rw [set_self, hth] at hu
    cases hu
  · rw [set_of_ne hne] at hu
    exact absurd (h.eq_of_holds ht hu) hne

/-- Where the data stays, whoever told goes on telling, unless it is the thread itself. -/
theorem told_keep (h : Sound s) (ht : (s.threads t).phase.tells = false)
    (hth : ∀ p, th.phase = .asleep p → p s.data = false) (u : ι) (p : σ → Bool)
    (hu : ((s.set t th).threads u).phase = .asleep p) (hp : p s.data = true) :
    ∃ v, ((s.set t th).threads v).phase.tells = true := by
  rcases eq_or_ne u t with rfl | hne
  · rw [set_self] at hu
    rw [hth p hu] at hp
    cases hp
  · rw [set_of_ne hne] at hu
    obtain ⟨v, hv⟩ := h.told u p hu hp
    refine ⟨v, ?_⟩
    rcases eq_or_ne v t with rfl | hvt
    · rw [ht] at hv
      cases hv
    · rwa [set_of_ne hvt]

theorem told_self (hth : th.phase.tells = true) :
    ∃ v, ((s.set t th).threads v).phase.tells = true := ⟨t, by rwa [set_self]⟩

theorem passed_keep (h : Sound s) (hth : ∀ p, th.phase = .passed p → p s.data = true) (u : ι)
    (p : σ → Bool) (hu : ((s.set t th).threads u).phase = .passed p) : p s.data = true := by
  rcases eq_or_ne u t with rfl | hne
  · rw [set_self] at hu
    exact hth p hu
  · rw [set_of_ne hne] at hu
    exact h.passed u p hu

/-- A thread that has the mutex and no data to show may change phase or let go of it. -/
theorem moves (h : Sound s) (hm : Moves s t s') : Sound s' := by
  cases hm with
  | act f todo e ht he =>
    exact ⟨h.owner_keep (by rw [ht]), h.told_keep (by rw [ht]; rfl) nofun, h.passed_keep nofun⟩
  | signal f todo ht =>
    exact ⟨h.owner_keep (by rw [ht]; rfl), h.told_keep (by rw [ht]; rfl) nofun, h.passed_keep nofun⟩
  | wait p todo ht =>
    exact ⟨h.owner_keep (by rw [ht]; rfl), h.told_keep (by rw [ht]; rfl) nofun, h.passed_keep nofun⟩
  | enter f todo ht ho =>
    exact ⟨h.owner_take ho rfl, h.told_keep (by rw [ht]; rfl) nofun, h.passed_keep nofun⟩
  | update f todo ht =>
    refine ⟨h.owner_keep (by rw [ht]; rfl), fun _ _ _ _ => told_self rfl, fun u p hu => ?_⟩
    -- nobody else can have passed, the mutex is ours
    rcases eq_or_ne u t with rfl | hne
    · rw [set_self] at hu
      cases hu
    · rw [set_of_ne hne] at hu
      exact absurd (h.eq_of_holds (by rw [ht]; rfl) (by rw [hu]; rfl)) hne
  | leave todo ht =>
    exact ⟨h.owner_release (by rw [ht]; rfl) rfl, fun _ _ _ _ => told_self rfl, h.passed_keep nofun⟩
  | notify todo ht =>
    refine ⟨fun u => ?_, fun u p hu => ?_, fun u p hu => ?_⟩
    · rcases eq_or_ne u t with rfl | hne
      · rw [set_self]
        exact (h.owner u).trans (by rw [ht]; rfl)
      · rw [set_of_ne hne]
        exact (h.owner u).trans (by rw [State.notifyAll, notified_holds])
    · rcases eq_or_ne u t with rfl | hne
      · rw [set_self] at hu
        cases hu
      · rw [set_of_ne hne] at hu
        exact absurd rfl ((notified_phase hu nofun).2 p)
    · rcases eq_or_ne u t with rfl | hne
      · rw [set_self] at hu
        cases hu
      · rw [set_of_ne hne] at hu
        exact h.passed u p (notified_phase hu nofun).1
  | acquire p todo ht ho =>
    exact ⟨h.owner_take ho rfl, h.told_keep (by rw [ht]; rfl) nofun, h.passed_keep nofun⟩
  | pass p todo ht hp =>
    refine ⟨h.owner_keep (by rw [ht]; rfl), h.told_keep (by rw [ht]; rfl) nofun, h.passed_keep ?_⟩
    intro q hq
    cases hq
    exact hp
  | sleep p todo ht hp =>
    refine ⟨h.owner_release (by rw [ht]; rfl) rfl, h.told_keep (by rw [ht]; rfl) ?_, h.passed_keep nofun⟩
    intro q hq
    cases hq
    exact hp
  | unlock p todo ht =>
    exact ⟨h.owner_release (by rw [ht]; rfl) rfl, h.told_keep (by rw [ht]; rfl) nofun, h.passed_keep nofun⟩

theorem step (h : Sound s) {e : Event ι} (he : step s e = some s') : Sound s' := by
  cases e with
  | advance t => exact h.moves (moves_of_advance he)
  | wake t =>
    obtain ⟨p, todo, ht, rfl⟩ := wake_cases he
    exact ⟨h.owner_keep (by rw [ht]; rfl), h.told_keep (by rw [ht]; rfl) nofun, h.passed_keep nofun⟩

/-- **A schedule gets stuck on false predicates only**: where no thread can go on, each one has
finished, cannot act, or sleeps on a predicate that does not hold. -/
theorem stuck (h : Sound s) (hs : ∀ t, advance s t = none) (t : ι) :
    s.threads t = ⟨.idle, []⟩ ∨ (∃ f todo, s.threads t = ⟨.idle, .act f :: todo⟩ ∧ f s.rest = none) ∨
      ∃ p todo, s.threads t = ⟨.asleep p, todo⟩ ∧ p s.data = false := by
  have hquiet : ∀ u, (s.threads u).phase.holds = false ∧ (s.threads u).phase.tells = false := by
    intro u
    rcases advance_none (hs u) with hu | ⟨f, todo, hu, -⟩ | ⟨p, todo, hu⟩ | ⟨-, hu⟩
    · rw [hu]
      exact ⟨rfl, rfl⟩
    · rw [hu]
      exact ⟨rfl, rfl⟩
    · rw [hu]
      exact ⟨rfl, rfl⟩
    · exact hu
  rcases advance_none (hs t) with ht | ⟨f, todo, ht, hf⟩ | ⟨p, todo, ht⟩ | ⟨ho, -⟩
  · exact .inl ht
  · exact .inr (.inl ⟨f, todo, ht, hf⟩)
  · refine .inr (.inr ⟨p, todo, ht, ?_⟩)
    rw [Bool.eq_false_iff]
    intro hp
    obtain ⟨u, hu⟩ := h.told t p (by rw [ht]) hp
    rw [(hquiet u).2] at hu
    cases hu
  · obtain ⟨u, ho⟩ := Option.ne_none_iff_exists'.mp ho
    have hu := (h.owner u).mp ho
    rw [(hquiet u).1] at hu
    cases hu

end Moves

end Sound

section Runs

variable [DecidableEq ι] {es : List (Event ι)}

theorem sound_of_runs (h : runs step s es = some s') (hs : Sound s) : Sound s' :=
  runs_invariant (fun _ _ _ h he => h.step he) h hs

end Runs

/-! ## Schedules end -/

/-- How many steps are ahead, where a signal also pays for the `n` steps of those it wakes. -/
def Op.cost (n : Nat) : Op σ ω → Nat
  | .act _ => 1
  | .signal _ => 5 + n
  | .wait _ => 4

def Phase.cost (n : Nat) : Phase σ → Nat
  | .idle => 0
  | .entering _ => 4 + n
  | .updating _ => 3 + n
  | .leaving => 2 + n
  | .notifying => 1 + n
  | .acquiring _ => 3
  | .testing _ => 2
  | .asleep _ => 1
  | .passed _ => 1

def todoCost (n : Nat) : List (Op σ ω) → Nat
  | [] => 0
  | op :: todo => op.cost n + todoCost n todo

def Thread.cost (n : Nat) (th : Thread σ ω) : Nat := th.phase.cost n + todoCost n th.todo

section Cost

variable [Fintype ι]

def State.cost (s : State ι σ ω) : Nat :=
  Finset.univ.sum fun t => (s.threads t).cost (2 * Fintype.card ι)

theorem cost_notified (n : Nat) (th : Thread σ ω) : th.notified.cost n ≤ th.cost n + 2 := by
  unfold Thread.notified
  split
  · simp only [Thread.cost, Phase.cost]
    omega
  · omega

theorem cost_notifyAll (s : State ι σ ω) : s.notifyAll.cost ≤ s.cost + 2 * Fintype.card ι := by
  have hsum := Finset.sum_le_sum fun t (_ : t ∈ Finset.univ) =>
    cost_notified (2 * Fintype.card ι) (s.threads t)
  rw [Finset.sum_add_distrib, Finset.sum_const_nat fun _ _ => rfl, Finset.card_univ] at hsum
  rw [Nat.mul_comm 2]
  exact hsum

variable [DecidableEq ι]

theorem cost_set (s : State ι σ ω) (t : ι) (th : Thread σ ω) :
    (s.set t th).cost + (s.threads t).cost (2 * Fintype.card ι) =
      s.cost + th.cost (2 * Fintype.card ι) := by
  have hothers : ((Finset.univ.erase t).sum fun u => ((s.set t th).threads u).cost (2 * Fintype.card ι)) =
      (Finset.univ.erase t).sum fun u => (s.threads u).cost (2 * Fintype.card ι) :=
    Finset.sum_congr rfl fun u hu => by rw [set_of_ne (Finset.ne_of_mem_erase hu)]
  have hold := Finset.add_sum_erase Finset.univ
    (fun u => (s.threads u).cost (2 * Fintype.card ι)) (Finset.mem_univ t)
  have hnew := Finset.add_sum_erase Finset.univ
    (fun u => ((s.set t th).threads u).cost (2 * Fintype.card ι)) (Finset.mem_univ t)
  simp only [set_self, hothers] at hnew
  simp only [State.cost]
  omega

/-- A step of a thread is a step less to go. -/
theorem Moves.cost (h : Moves s t s') : s'.cost < s.cost := by
  have hset : ∀ {th th' : Thread σ ω}, s.threads t = th →
      th'.cost (2 * Fintype.card ι) < th.cost (2 * Fintype.card ι) → (s.set t th').cost < s.cost := by
    intro th th' ht hlt
    have h := cost_set s t th'
    rw [ht] at h
    omega
  cases h with
  | act f todo e ht he =>
    exact hset ht (by simp only [Thread.cost, Phase.cost, todoCost, Op.cost]; omega)
  | signal f todo ht => exact hset ht (by simp only [Thread.cost, Phase.cost, todoCost, Op.cost]; omega)
  | wait p todo ht => exact hset ht (by simp only [Thread.cost, Phase.cost, todoCost, Op.cost]; omega)
  | enter f todo ht ho => exact hset ht (by simp only [Thread.cost, Phase.cost]; omega)
  | update f todo ht => exact hset ht (by simp only [Thread.cost, Phase.cost]; omega)
  | leave todo ht => exact hset ht (by simp only [Thread.cost, Phase.cost]; omega)
  | notify todo ht =>
    have hnotify := cost_notifyAll s
    have h := cost_set s.notifyAll t ⟨.idle, todo⟩
    have ht' : s.notifyAll.threads t = ⟨.notifying, todo⟩ := by
      show (s.threads t).notified = _
      rw [ht]
      rfl
    rw [ht'] at h
    simp only [Thread.cost, Phase.cost] at h
    omega
  | acquire p todo ht ho => exact hset ht (by simp only [Thread.cost, Phase.cost]; omega)
  | pass p todo ht hp => exact hset ht (by simp only [Thread.cost, Phase.cost]; omega)
  | sleep p todo ht hp => exact hset ht (by simp only [Thread.cost, Phase.cost]; omega)
  | unlock p todo ht => exact hset ht (by simp only [Thread.cost, Phase.cost]; omega)

def Event.isWake : Event ι → Bool
  | .advance _ => false
  | .wake _ => true

/-- **Schedules are finite**, but for the threads that are woken for no reason. -/
theorem length_le_cost {es : List (Event ι)} (h : runs step s es = some s') :
    es.length + s'.cost ≤ s.cost + 3 * es.countP Event.isWake := by
  refine runs_induction (P := fun es s' => es.length + s'.cost ≤ s.cost + 3 * es.countP Event.isWake)
    (Nat.le_of_eq (Nat.zero_add _)) (fun es r e u hr he => ?_) h
  rw [List.length_append, List.countP_append]
  cases e with
  | advance t =>
    have hlt := (moves_of_advance he).cost
    simp only [List.length_singleton, List.countP_singleton, Event.isWake]
    omega
  | wake t =>
    obtain ⟨p, todo, ht, rfl⟩ := wake_cases he
    have hset := cost_set r t ⟨.acquiring p, todo⟩
    rw [ht] at hset
    simp only [Thread.cost, Phase.cost] at hset
    simp only [List.length_singleton, List.countP_singleton, Event.isWake, if_true]
    omega

end Cost

end EzCpp.Lib.Monitor
