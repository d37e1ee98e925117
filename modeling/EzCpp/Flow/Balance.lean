import EzCpp.Flow.Contracts
import EzCpp.Lib.Stack

/-!
# The scope stack is balanced but for timeouts

Every scope is popped by a guard except the one of a workflow invocation, which the invocation pops
itself when it ends. So an evaluation leaves the scopes it found, with one more on top for each
invocation that was destroyed while it was awaited, and none of its own if there was no timeout.
-/

namespace EzCpp.Flow

open EzCpp.Lib Ast

/-- The same scope; entries may have been added. -/
structure Scope.Kept (s t : Scope) : Prop where
  id : t.id = s.id
  type : t.type = s.type
  returnValue : t.returnValue = s.returnValue
  types : t.types = s.types
  entries : s.entries <:+ t.entries

instance : Std.Refl Scope.Kept := ⟨fun _ => ⟨rfl, rfl, rfl, rfl, List.suffix_refl _⟩⟩

instance : IsTrans Scope Scope.Kept where
  trans _ _ _ h h' := ⟨h'.id.trans h.id, h'.type.trans h.type, h'.returnValue.trans h.returnValue,
    h'.types.trans h.types, h.entries.trans h'.entries⟩

/-- The stack has the scopes it had before, and no others. -/
def SameScopes (s t : State) : Prop := List.Forall₂ Scope.Kept s.scopes t.scopes

/-- The stack is the one there was before, with `k` more scopes on top. -/
def State.Above (k : Nat) (s t : State) : Prop := Lib.Above Scope.Kept k s.scopes t.scopes

namespace State

theorem above_of_scopes {s t : State} (h : t.scopes = s.scopes) : s.Above 0 t := by
  rw [Above, h]
  exact Lib.Above.refl _

theorem Above.trans {j k : Nat} {s t u : State} (h : s.Above k t) (h' : t.Above j u) :
    s.Above (k + j) u :=
  Lib.Above.trans h h'

theorem above_push (s : State) (type : ScopeType) : s.Above 1 (s.push type) :=
  Lib.Above.push _ s.scopes

theorem scopes_pop {s : State} (h : s.outer ≠ []) :
    List.Forall₂ Scope.Kept s.scopes.tail s.pop.scopes := by
  obtain ⟨below, outer, ho⟩ := List.exists_cons_of_ne_nil h
  simp only [scopes, pop, ho, List.tail_cons]
  exact .cons ⟨rfl, rfl, rfl, rfl, List.suffix_refl _⟩ (List.forall₂_refl _)

/-- The pop that belongs to a push, whatever is on top of what was pushed by then. -/
theorem Above.pop {k : Nat} {s t : State} {type : ScopeType} (h : (s.push type).Above k t) :
    s.Above k t.pop := by
  have outer : t.outer ≠ [] := by
    have := Lib.Above.length h
    simp only [scopes, push, List.length_cons] at this
    exact fun he => by simp [he] at this; omega
  exact forall₂_trans (Lib.Above.pop h) (List.forall₂_drop k (scopes_pop outer))

/-- Statements do not change the stack but for the entries and the policy of the current scope. -/
theorem above_apply {s : State} {a : Action} (ha : Action.ofStatement a) :
    s.Above 0 (s.apply a) := by
  cases a with
  | declare name value =>
    exact .cons ⟨rfl, rfl, rfl, rfl, List.suffix_cons _ _⟩ (List.forall₂_refl _)
  | breakLoop =>
    exact .cons ⟨rfl, rfl, rfl, rfl, List.suffix_refl _⟩ (List.forall₂_refl _)
  | alloc | assign | insert | wake | print | request => exact above_of_scopes rfl
  | push | pop | returnValue | execute | timeout => exact ha.elim

end State

theorem sameScopes_iff {k : Nat} {s t : State} (h : s.Above k t) : SameScopes s t ↔ k = 0 :=
  Above.forall₂_iff (List.cons_ne_nil _ _) h

/-! ## The contract -/

/-- Scopes are left over where an evaluation is broken off, and where a wait was over early. -/
def balance : Contract State Action where
  returns s l t := ∃ k, s.Above k t ∧ (k = 0 ↔ Action.timeout ∉ l)
  throws s _ t := ∃ k, s.Above k t
  cuts s _ t := ∃ k, s.Above k t
  returns_refl _ := ⟨0, State.above_of_scopes rfl, by simp⟩
  throws_refl _ := ⟨0, State.above_of_scopes rfl⟩
  cuts_refl _ := ⟨0, State.above_of_scopes rfl⟩
  returns_trans := by
    rintro s t u l k ⟨i, hi, hl⟩ ⟨j, hj, hk⟩
    refine ⟨i + j, hi.trans hj, ?_⟩
    rw [List.mem_append, not_or, ← hl, ← hk]
    omega
  throws_trans := fun ⟨_, hi, _⟩ ⟨_, hj⟩ => ⟨_, hi.trans hj⟩
  cuts_trans := fun ⟨_, hi, _⟩ ⟨_, hj⟩ => ⟨_, hi.trans hj⟩

theorem balance_admits : AdmitsStatements balance where
  action s a ha := by
    refine ⟨0, State.above_apply ha, iff_of_true rfl ?_⟩
    rintro (_ | ⟨_, ⟨⟩⟩)
    exact ha
  execute s statement := ⟨0, State.above_of_scopes rfl, by simp⟩
  returnValue s value origin := by
    refine ⟨0, .cons ⟨rfl, rfl, rfl, rfl, List.suffix_refl _⟩ (List.forall₂_refl _), ?_⟩
    simp
  scope type m hm s := by
    have body := hm (s.push type)
    rw [after_evalScope, run_evalScope]
    cases he : (m (s.push type)).exit with
    | ok _ =>
      rw [he] at body
      obtain ⟨k, hk, hl⟩ := body
      exact ⟨k, hk.pop, by simpa using hl⟩
    | throw e =>
      rw [he] at body
      obtain ⟨k, hk⟩ := body
      exact ⟨k, hk.pop⟩
    | cut n =>
      rw [he] at body
      obtain ⟨k, hk⟩ := body
      exact ⟨k, hk.pop⟩

/-! ## Invocations -/

section Invocation

variable {evalBody : List WorkflowStatement → Eval Unit}
  (hb : ∀ statements, (evalBody statements).Meets balance)
include hb

theorem evalInvocation_balanced (invocation : WorkflowInvocation) :
    (evalInvocation evalBody invocation).Meets balance := by
  intro s
  rcases evalInvocation_cases evalBody invocation s with ⟨e, -, h⟩ | ⟨type, -, h⟩
  · rw [Coroutine.after, h]
    exact ⟨0, State.above_of_scopes rfl⟩
  · have inside := evalFunction_meets balance_admits hb invocation type (s.push .function)
    rw [Coroutine.after, h]
    simp only [closeFunction, List.foldl_cons, List.foldl_append]
    cases he : (evalFunction evalBody invocation type (s.push .function)).exit with
    | ok value =>
      rw [he] at inside
      obtain ⟨k, hk, hl⟩ := inside
      exact ⟨k, hk.pop, by simpa using hl⟩
    | throw e =>
      rw [he] at inside
      obtain ⟨k, hk⟩ := inside
      exact ⟨1 + k, (State.above_push s _).trans hk⟩
    | cut n =>
      rw [he] at inside
      obtain ⟨k, hk⟩ := inside
      exact ⟨1 + k, (State.above_push s _).trans hk⟩

/-- A destroyed invocation leaves its own scope, at least. -/
theorem evalInvocation_cut (invocation : WorkflowInvocation) {s : State} {n : Nat}
    (he : (evalInvocation evalBody invocation s).exit = .cut n) :
    ∃ k, s.Above (k + 1) ((evalInvocation evalBody invocation).after s) := by
  rcases evalInvocation_cases evalBody invocation s with ⟨e, -, h⟩ | ⟨type, -, h⟩
  · rw [h] at he
    cases he
  · rw [Coroutine.after, h]
    rw [h] at he
    simp only [closeFunction] at he ⊢
    obtain ⟨k, hk⟩ := (evalFunction_meets balance_admits hb invocation type).cuts he
    refine ⟨k, ?_⟩
    rw [he, Nat.add_comm, List.append_nil]
    exact (State.above_push s _).trans hk

end Invocation

theorem awaitWorkflow_balanced {invoke : WorkflowInvocation → Eval Entity}
    (invocation : WorkflowInvocation) (hm : (invoke invocation).Meets balance)
    (hcut : ∀ s n, ((invoke invocation) s).exit = .cut n →
      ∃ k, s.Above (k + 1) ((invoke invocation).after s)) :
    (awaitWorkflow invoke invocation).Meets balance := by
  refine .onAbandoned hm fun s he => ?_
  obtain ⟨k, hk⟩ := hcut s 0 he
  refine ⟨k + 1, hk, iff_of_false (Nat.succ_ne_zero k) fun h => h ?_⟩
  exact List.mem_append_right _ (List.mem_singleton_self _)

theorem evalInvocations_balanced (host : Host) (depth : Nat) (invocation : WorkflowInvocation) :
    (awaitWorkflow (evalInvocations host depth) invocation).Meets balance := by
  induction depth generalizing invocation with
  | zero =>
    exact awaitWorkflow_balanced invocation (.throw _) fun s n he => by cases he
  | succ depth ih =>
    have leaves := evalLeaves_meet balance_admits host ih
    have body := evalStatements_meets balance_admits host leaves.1 leaves.2
    exact awaitWorkflow_balanced invocation (evalInvocation_balanced body invocation)
      fun s n he => evalInvocation_cut body invocation he

/-! ## The stack after a statement or an expression -/

section Stack

variable (host : Host) (depth : Nat)

theorem sameScopes_of_meets {α : Type} {m : Eval α} (hm : m.Meets balance) {s : State} {a : α}
    (he : (m s).exit = .ok a) : SameScopes s (m.after s) ↔ Action.timeout ∉ (m s).log := by
  obtain ⟨k, hk, hl⟩ := hm.returns he
  rw [sameScopes_iff hk, hl]

/-- **A completed evaluation leaves the scopes as they were if, and only if, no await of a workflow
was over before the workflow.** -/
theorem sameScopes_iff_no_timeout (s : State) :
    (∀ statement, (runStatement host depth statement s).exit = .ok () →
      (SameScopes s ((runStatement host depth statement).after s) ↔
        Action.timeout ∉ (runStatement host depth statement s).log)) ∧
    ∀ e value, (runExpression host depth e s).exit = .ok value →
      (SameScopes s ((runExpression host depth e).after s) ↔
        Action.timeout ∉ (runExpression host depth e s).log) := by
  have await := evalInvocations_balanced host depth
  constructor
  · intro statement he
    have leaves := evalLeaves_meet balance_admits host await
    exact sameScopes_of_meets (evalStatement_meets balance_admits host leaves.1 leaves.2 _) he
  · intro e value he
    exact sameScopes_of_meets (evalExpression_meets balance_admits.admits host await e) he

end Stack

/-- A workflow that waits for so many seconds. -/
def sleeper (count : UInt64) : WorkflowDefinition where
  name := "sleeper"
  signature := none
  statements := [.delay (Literal.duration ⟨count, .sec⟩).toExpression]

/-- `await sleeper for 2sec` -/
def awaitSleeper : WorkflowStatement :=
  .expression (PrimaryExpression.awaitExpression
    ⟨IdentifierPath.toExpression ⟨"sleeper", []⟩,
      (Literal.duration ⟨2, .sec⟩).toExpression⟩).toExpression

/-- An interpreter that has evaluated the definition of `sleeper`. -/
def sleeperState (count : UInt64) (wake : Wake) : State :=
  (State.fresh [wake]).declare "sleeper" (.workflowDefinition (sleeper count))

/-- A delay of a second is over in time. -/
theorem sleeper_in_time : SameScopes (sleeperState 1 .resumed)
    ((runStatement .plain 1 awaitSleeper).after (sleeperState 1 .resumed)) :=
  ((sameScopes_iff_no_timeout .plain 1 (sleeperState 1 .resumed)).1 awaitSleeper rfl).mpr
    (timeout_not_mem rfl)

/-- With a delay of three seconds the timer is first, and the scope of the workflow is left on the
stack. -/
theorem sleeper_timeout_leaves_scope :
    ¬ ∀ host depth s statement, (runStatement host depth statement s).exit = .ok () →
      SameScopes s ((runStatement host depth statement).after s) := by
  intro h
  have same := h .plain 1 (sleeperState 3 (.abandoned 0)) awaitSleeper rfl
  exact absurd same.length_eq (by decide)

end EzCpp.Flow
