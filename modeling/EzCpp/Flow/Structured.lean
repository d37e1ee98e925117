import EzCpp.Flow.Contracts

/-!
# Structured control flow

The control statements again, as their syntax suggests: `break` ends the innermost enclosing repeat,
and what follows this repeat is executed next. No flag is involved. A run is described by the simple
statements that are executed and by the points at which a repeat is left by a `break`.

Conditions and simple statements are opaque: all that is asked of them is that they return and leave
the scopes, their policies and the statements of the function alone. There is no run where one of
them does not, or where a repeat does not end within `max_loop_count` rounds.
-/

namespace EzCpp.Flow

open EzCpp.Lib Ast

/-- Neither a control statement nor a `break`. -/
def Ast.WorkflowStatement.isSimple : WorkflowStatement → Bool
  | .ifBlock _ | .repeatBlock _ | .breakStatement => false
  | _ => true

/-- The simple statements that a function has executed, by the log. -/
def simples (owner : Nat) (log : List Action) : List WorkflowStatement :=
  log.filterMap fun a =>
    match a with
    | .execute f statement => if f = owner ∧ statement.isSimple then some statement else none
    | _ => none

/-- What the control statements look at. -/
def State.control (s : State) : List (ScopeType × Nat × FlowControlPolicy) :=
  s.scopes.map fun scope => (scope.type, scope.returnValue, scope.policy)

namespace Structured

inductive Event
  | executed (statement : WorkflowStatement)
  | left

/-- How a statement ends: `broke` is looking for its repeat. -/
inductive Signal
  | normal
  | broke
deriving DecidableEq

structure Outcome where
  trace : List Event
  signal : Signal
  state : State

/-- The simple statements of a trace. -/
def executed : List Event → List WorkflowStatement
  | [] => []
  | .executed statement :: trace => statement :: executed trace
  | .left :: trace => executed trace

/-- Those before a repeat is left by a `break` for the first time. -/
def beforeLeft : List Event → List WorkflowStatement
  | [] => []
  | .executed statement :: trace => statement :: beforeLeft trace
  | .left :: _ => []

/-- Those after it. -/
def afterLeft : List Event → List WorkflowStatement
  | [] => []
  | .executed _ :: trace => afterLeft trace
  | .left :: trace => executed trace

theorem executed_eq (trace : List Event) : executed trace = beforeLeft trace ++ afterLeft trace := by
  induction trace with
  | nil => rfl
  | cons e trace ih =>
    cases e with
    | executed statement => rw [executed, beforeLeft, afterLeft, ih, List.cons_append]
    | left => rfl

theorem beforeLeft_append_of_mem {t : List Event} (h : .left ∈ t) (u : List Event) :
    beforeLeft (t ++ u) = beforeLeft t := by
  induction t with
  | nil => cases h
  | cons e t ih =>
    cases e with
    | executed statement =>
      have h : .left ∈ t := by simpa using h
      rw [List.cons_append, beforeLeft, beforeLeft, ih h]
    | left => rfl

theorem beforeLeft_append_of_not_mem {t : List Event} (h : .left ∉ t) (u : List Event) :
    beforeLeft (t ++ u) = beforeLeft t ++ beforeLeft u := by
  induction t with
  | nil => rfl
  | cons e t ih =>
    cases e with
    | executed statement =>
      have h : .left ∉ t := by simpa using h
      rw [List.cons_append, beforeLeft, beforeLeft, ih h, List.cons_append]
    | left => simp at h

abbrev Sem := State → Option Outcome

def skip : Sem := fun s => some ⟨[], .normal, s⟩

/-- What an opaque evaluation returns. -/
def result {α : Type} (m : Eval α) (s : State) : Option α :=
  match (m s).exit with
  | .ok a =>
    if (m.after s).control = s.control ∧ (simples s.current.returnValue (m s).log).isEmpty then some a
    else none
  | _ => none

def simple (m : Eval Unit) (statement : WorkflowStatement) : Sem := fun s =>
  (result m s).map fun _ => ⟨[.executed statement], .normal, m.after s⟩

def breakLoop : Sem := fun s => some ⟨[], .broke, s⟩

def Outcome.andThen (o : Outcome) (next : Sem) : Option Outcome :=
  (next o.state).map fun p => { p with trace := o.trace ++ p.trace }

def seq (m next : Sem) : Sem := fun s =>
  (m s).bind fun o =>
    match o.signal with
    | .normal => o.andThen next
    | .broke => some o

def scope (type : ScopeType) (m : Sem) : Sem := fun s =>
  (m (s.push type)).map fun o => { o with state := o.state.pop }

def branch (condition : Eval Bool) (yes no : Sem) : Sem := fun s =>
  (result condition s).bind fun b => if b then yes (condition.after s) else no (condition.after s)

def loop (m : Sem) : Nat → Sem
  | 0 => fun _ => none
  | count + 1 => fun s =>
    (m s).bind fun o =>
      match o.signal with
      | .normal => o.andThen (loop m count)
      | .broke => some ⟨o.trace ++ [.left], .normal, o.state⟩

section

variable (host : Host) (leaves : Leaves)

mutual

def statement (st : WorkflowStatement) : Sem :=
  match st with
  | .ifBlock ⟨⟨condition, block⟩, elifBlocks, elseBlock⟩ =>
    branch (leaves.condition condition) (scope .local (statements block))
      (elifs elifBlocks (if elseBlock.isEmpty then skip else scope .local (statements elseBlock)))
  | .repeatBlock ⟨block⟩ => loop (scope .loop (statements block)) host.maxLoopCount
  | .breakStatement => breakLoop
  | st => simple (leaves.simple st) st

def statements : List WorkflowStatement → Sem
  | [] => skip
  | st :: sts => seq (statement st) (statements sts)

def elifs (blocks : List (ConditionBlock WorkflowStatement)) (otherwise : Sem) : Sem :=
  match blocks with
  | [] => otherwise
  | ⟨condition, block⟩ :: blocks =>
    branch (leaves.condition condition) (scope .local (statements block)) (elifs blocks otherwise)

end

end

end Structured

end EzCpp.Flow
