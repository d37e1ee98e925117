import EzCpp.Flow.Balance
import EzCpp.Flow.Break

/-!
# The branches of an if block

The conditions of an if block are gone through in order (`Tests`), and what is evaluated after them
is the branch of the first one that holds, or the else block (`evalBranch`). This is what the code
does, whatever the flags are by then, as long as the conditions themselves leave the policy alone
(`run_ifBlock`).

The branch has a scope of its own, which is popped by a guard. A wait for a workflow that is over
early leaves the scopes of that workflow on the stack: then the guard pops one of these, and neither
is the scope of the branch gone nor does a signal from inside get out.
-/

namespace EzCpp.Flow

open EzCpp.Lib Ast

/-- The branches that have a condition. -/
def Ast.IfBlockOf.branches (block : IfBlock) : List (ConditionBlock WorkflowStatement) :=
  block.ifBlock :: block.elifBlocks

/-- The condition has this value; no wait in it is over early, and no `try` in it returns. -/
structure Decides (condition : Eval Bool) (s : State) (b : Bool) : Prop where
  value : (condition s).exit = .ok b
  inTime : Action.timeout ∉ (condition s).log
  stays : (condition.after s).current.policy = .stay

/-- The conditions are evaluated one after the other, up to the first one that holds. The log is all
that they do, and the scope is the one that belongs to it. -/
inductive Tests (leaves : Leaves) : List (ConditionBlock WorkflowStatement) → State → List Action →
    Option WorkflowScope → Prop
  | none (s : State) : Tests leaves [] s [] .none
  | holds {condition : Expression} {statements : WorkflowScope}
      {blocks : List (ConditionBlock WorkflowStatement)} {s : State}
      (h : Decides (leaves.condition condition) s true) :
      Tests leaves (⟨condition, statements⟩ :: blocks) s (leaves.condition condition s).log
        (some statements)
  | fails {condition : Expression} {statements : WorkflowScope}
      {blocks : List (ConditionBlock WorkflowStatement)} {s : State} {log : List Action}
      {selected : Option WorkflowScope}
      (h : Decides (leaves.condition condition) s false)
      (rest : Tests leaves blocks ((leaves.condition condition).after s) log selected) :
      Tests leaves (⟨condition, statements⟩ :: blocks) s
        ((leaves.condition condition s).log ++ log) selected

section Branches

variable (host : Host) (leaves : Leaves)

/-- The branch that is selected, or what there is to do otherwise. -/
def evalBranch (otherwise : Eval Unit) (selected : Option WorkflowScope) : Eval Unit :=
  selected.elim otherwise fun statements => evalScope .local (evalStatements host leaves statements)

/-- An else block that is empty is left out, with its scope. -/
def evalElse (statements : WorkflowScope) : Eval Unit :=
  if statements.isEmpty then pure () else evalScope .local (evalStatements host leaves statements)

/-- What the scope of the branch has been told by its statements when it is left. -/
def signalled (statements : WorkflowScope) (s : State) : FlowControlPolicy :=
  ((evalStatements host leaves statements).after (s.push .local)).current.policy

/-- The first branch whose condition holds is the one that is executed, in a scope that is gone
afterwards, and a signal in it gets to the scope around. -/
structure RunsFirst (block : IfBlock) (s : State) (log : List Action)
    (selected : Option WorkflowScope) : Prop where
  run : evalStatement host leaves (.ifBlock block) s =
    let branch := evalBranch host leaves (evalElse host leaves block.elseBlock) selected
      (log.foldl State.apply s)
    ⟨branch.exit, .execute s.current.returnValue (.ifBlock block) :: (log ++ branch.log)⟩
  gone : (evalStatement host leaves (.ifBlock block) s).exit = .ok () →
    SameScopes s ((evalStatement host leaves (.ifBlock block)).after s)
  signal : (evalStatement host leaves (.ifBlock block) s).exit = .ok () → ∀ policy ≠ .stay,
    signalled host leaves (selected.getD block.elseBlock) (log.foldl State.apply s) = policy →
    ((evalStatement host leaves (.ifBlock block)).after s).current.policy = policy

end Branches

/-! ## What is run -/

section Run

variable {host : Host} {leaves : Leaves} {blocks : List (ConditionBlock WorkflowStatement)}
  {s : State} {log : List Action} {selected : Option WorkflowScope}

theorem Tests.inTime (h : Tests leaves blocks s log selected) : Action.timeout ∉ log := by
  induction h with
  | none s => exact List.not_mem_nil
  | holds h => exact h.inTime
  | fails h _ ih =>
    intro hm
    rcases List.mem_append.1 hm with hm | hm
    · exact h.inTime hm
    · exact ih hm

theorem run_evalElifBlocks (otherwise : Eval Unit) (h : Tests leaves blocks s log selected) :
    evalElifBlocks host leaves blocks otherwise s =
      ⟨(evalBranch host leaves otherwise selected (log.foldl State.apply s)).exit,
        log ++ (evalBranch host leaves otherwise selected (log.foldl State.apply s)).log⟩ := by
  induction h with
  | none s =>
    rw [evalElifBlocks]
    rfl
  | holds h =>
    rw [evalElifBlocks, run_condition_holds h.value fun _ => rfl]
    rfl
  | fails h _ ih =>
    rw [evalElifBlocks, run_condition_fails h.value, if_neg Bool.false_ne_true,
      run_ifStay_of_stay h.stays, ih, List.foldl_append, List.append_assoc]
    rfl

/-- **The conditions are evaluated in order up to the first one that holds; its branch is executed,
or the else block, and nothing else.** -/
theorem run_ifBlock {block : IfBlock} (h : Tests leaves block.branches s log selected) :
    evalStatement host leaves (.ifBlock block) s =
      let branch := evalBranch host leaves (evalElse host leaves block.elseBlock) selected
        (log.foldl State.apply s)
      ⟨branch.exit, .execute s.current.returnValue (.ifBlock block) :: (log ++ branch.log)⟩ := by
  obtain ⟨⟨condition, statements⟩, elifBlocks, elseBlock⟩ := block
  rw [evalStatement, Coroutine.bind_ok (rfl : (recordStatement _ s).exit = .ok ())]
  have recorded : (recordStatement (.ifBlock ⟨⟨condition, statements⟩, elifBlocks, elseBlock⟩)).after
      s = s := rfl
  rw [recorded]
  cases h with
  | holds h =>
    rw [run_condition_holds h.value fun t => ?_]
    · rfl
    · by_cases ht : t.current.policy = .stay
      · exact run_ifStay_of_stay ht
      · exact run_ifStay_of_ne ht
  | fails h rest =>
    rw [run_condition_fails h.value, run_ifStay_of_stay h.stays, if_neg Bool.false_ne_true,
      run_evalElifBlocks _ rest]
    simp only [List.foldl_append, List.append_assoc]
    rfl

/-- The state that a completed if block leaves is the one its branch leaves. -/
theorem after_ifBlock {block : IfBlock} (h : Tests leaves block.branches s log selected) :
    (evalStatement host leaves (.ifBlock block)).after s =
      (evalBranch host leaves (evalElse host leaves block.elseBlock) selected).after
        (log.foldl State.apply s) := by
  rw [Coroutine.after, run_ifBlock h, List.foldl_cons, List.foldl_append]
  rfl

end Run

/-! ## What is left -/

theorem State.shape_eq_of_sameScopes {s t : State} (h : SameScopes s t) : t.shape = s.shape := by
  rw [SameScopes] at h
  rw [shape, shape]
  generalize s.scopes = l, t.scopes = m at h
  induction h with
  | nil => rfl
  | cons kept _ ih => rw [List.map_cons, List.map_cons, kept.type, kept.returnValue, ih]

/-- `pop` hands on what the scope has been told, unless it is the scope of a function. -/
theorem State.policy_pop_of_shape {s t : State} {type : ScopeType} (ht : type ≠ .function)
    (h : t.shape = (s.push type).shape) (hp : t.current.policy ≠ .stay) :
    t.pop.current.policy = t.current.policy := by
  obtain ⟨hk, below, outer, ho⟩ := outer_of_shape h
  simp only [pop, ho]
  cases hq : t.current.policy with
  | stay => exact absurd hq hp
  | «return» | «break» =>
    cases type with
    | function => exact absurd rfl ht
    | loop | «local» => simp only [propagate, hq, hk]

section Signal

variable {host : Host} {leaves : Leaves} {s : State}
  (hm : ∀ statements, (evalStatements host leaves statements).Meets balance)
include hm

/-- Where no wait in a scope was over early, what it has been told gets out. -/
theorem policy_evalScope {statements : WorkflowScope}
    (he : (evalScope .local (evalStatements host leaves statements) s).exit = .ok ())
    (ht : .timeout ∉ (evalScope .local (evalStatements host leaves statements) s).log)
    (hp : signalled host leaves statements s ≠ .stay) :
    ((evalScope .local (evalStatements host leaves statements)).after s).current.policy =
      signalled host leaves statements s := by
  rw [run_evalScope] at he ht
  have inside : Action.timeout ∉ (evalStatements host leaves statements (s.push .local)).log :=
    fun h => ht (List.mem_cons_of_mem _ (List.mem_append_left _ h))
  have same := (sameScopes_of_meets (hm statements) he).mpr inside
  rw [after_evalScope]
  exact State.policy_pop_of_shape ScopeType.local_ne_function (State.shape_eq_of_sameScopes same) hp

theorem policy_evalBranch {elseBlock : WorkflowScope} {selected : Option WorkflowScope}
    (he : (evalBranch host leaves (evalElse host leaves elseBlock) selected s).exit = .ok ())
    (ht : .timeout ∉ (evalBranch host leaves (evalElse host leaves elseBlock) selected s).log)
    (hp : signalled host leaves (selected.getD elseBlock) s ≠ .stay) :
    ((evalBranch host leaves (evalElse host leaves elseBlock) selected).after s).current.policy =
      signalled host leaves (selected.getD elseBlock) s := by
  cases selected with
  | some statements => exact policy_evalScope hm he ht hp
  | none =>
    cases elseBlock with
    | nil =>
      have none : signalled host leaves [] s = .stay := by
        rw [signalled, evalStatements]
        rfl
      exact absurd none hp
    | cons statement elseBlock => exact policy_evalScope hm he ht hp

end Signal

section Main

variable (host : Host) (depth : Nat)

/-- **An if block runs the first branch whose condition holds, in a scope that is gone afterwards
and that hands a signal on, if and only if it does not complete or no wait for a workflow in this
branch is over early.** -/
theorem runsFirst_iff {block : IfBlock} {s : State} {log : List Action}
    {selected : Option WorkflowScope}
    (h : Tests (evalLeaves host (evalInvocations host depth)) block.branches s log selected) :
    RunsFirst host (evalLeaves host (evalInvocations host depth)) block s log selected ↔
      ((runStatement host depth (.ifBlock block) s).exit = .ok () →
        .timeout ∉ (evalBranch host (evalLeaves host (evalInvocations host depth))
          (evalElse host (evalLeaves host (evalInvocations host depth)) block.elseBlock) selected
          (log.foldl State.apply s)).log) := by
  have await := evalInvocations_balanced host depth
  have meet := evalLeaves_meet balance_admits host await
  have run := @run_ifBlock host _ _ _ _ _ h
  have logs : Action.timeout ∉ (runStatement host depth (.ifBlock block) s).log ↔
      Action.timeout ∉ (evalBranch host (evalLeaves host (evalInvocations host depth))
        (evalElse host (evalLeaves host (evalInvocations host depth)) block.elseBlock) selected
        (log.foldl State.apply s)).log := by
    rw [runStatement, run]
    simp [h.inTime]
  have same := sameScopes_of_meets
    (evalStatement_meets balance_admits host meet.1 meet.2 (.ifBlock block)) (s := s) (a := ())
  constructor
  · intro first he
    exact logs.mp ((same he).mp (first.gone he))
  · intro inTime
    refine ⟨run, fun he => (same he).mpr (logs.mpr (inTime he)), ?_⟩
    rintro he policy hp rfl
    rw [after_ifBlock h]
    refine policy_evalBranch (evalStatements_meets balance_admits host meet.1 meet.2) ?_
      (inTime he) hp
    rw [run] at he
    exact he

end Main

theorem decides_literal {host : Host} {invoke : WorkflowInvocation → Eval Entity} {s : State}
    (hs : s.current.policy = .stay) (b : Bool) :
    Decides (evalBoolean host invoke (Literal.boolean b).toExpression) s b := by
  have run : evalBoolean host invoke (Literal.boolean b).toExpression s =
      ⟨.ok b, [.alloc .boolean b]⟩ := by
    rw [evalBoolean, Literal.toExpression, evalExpression_primary, evalPrimary]
    simp [evalLiteral, Eval.alloc, Eval.gets, Eval.perform, Coroutine.run_bind, Coroutine.sequel,
      Coroutine.gets, Coroutine.perform, Coroutine.run_pure, convertCondition, State.apply]
  refine ⟨by rw [run], ?_, ?_⟩
  · rw [run]
    simp
  · rw [Coroutine.after, run]
    exact hs

/-- `if false [break] elif true [await sleeper for 2sec; break] else [await sleeper for 2sec]` -/
def awaitAndBreak : IfBlock where
  ifBlock := ⟨(Literal.boolean false).toExpression, [.breakStatement]⟩
  elifBlocks := [⟨(Literal.boolean true).toExpression, [awaitSleeper, .breakStatement]⟩]
  elseBlock := [awaitSleeper]

/-- The evaluators of the interpreter, with one invocation. -/
abbrev shallowLeaves : Leaves := evalLeaves .plain (evalInvocations .plain 1)

theorem awaitAndBreak_tests (count : UInt64) (wake : Wake) : Tests shallowLeaves
    awaitAndBreak.branches (sleeperState count wake) [.alloc .boolean false, .alloc .boolean true]
    (some [awaitSleeper, .breakStatement]) :=
  .fails (decides_literal rfl false) (.holds (decides_literal rfl true))

theorem awaitAndBreak_in_time : RunsFirst .plain shallowLeaves awaitAndBreak (sleeperState 1 .resumed)
    [.alloc .boolean false, .alloc .boolean true] (some [awaitSleeper, .breakStatement]) :=
  (runsFirst_iff .plain 1 (awaitAndBreak_tests 1 .resumed)).mpr fun _ => timeout_not_mem rfl

/-- When the timer is first, the scope of the branch stays, and the break goes nowhere. -/
theorem awaitAndBreak_stays :
    ¬ ∀ host depth block s log selected,
      Tests (evalLeaves host (evalInvocations host depth)) block.branches s log selected →
      RunsFirst host (evalLeaves host (evalInvocations host depth)) block s log selected := by
  intro h
  have same := (h .plain 1 awaitAndBreak _ _ _ (awaitAndBreak_tests 3 (.abandoned 0))).gone rfl
  exact absurd same.length_eq (by decide)

end EzCpp.Flow
