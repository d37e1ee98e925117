import EzCpp.Flow.Entity
import EzCpp.Lib.Coroutine

/-!
# The state of an interpreter

`EvaluationScope` is a stack of scopes over the heap. Everything an evaluation does to them is an
`Action`, and an evaluation is a coroutine over these actions, so that its log says all it has done.

An evaluation is suspended at a `delay` and at the await of a request; what it is woken by there is
the environment's choice, kept in `State.schedule` in the order in which it will be asked. Awaiting
a workflow is waiting for what the workflow waits for: when the timer of the wait fires first, the
workflow is destroyed where it is suspended (`Wake.abandoned`).

`Action.execute`, `Action.timeout`, the origin of a return value and the variable of an assignment
change nothing; they are there to be spoken about.
-/

namespace EzCpp.Flow

open EzCpp.Lib

/-- `boost::json::value` -/
inductive Json
  | null
  | bool (b : Bool)
  | int64 (i : Int64)
  | uint64 (u : UInt64)
  | double (d : Float)
  | string (s : String)
  | array (vs : List Json)
  | object (members : List (String × Json))

inductive ScopeType
  | function
  | loop
  | local
deriving DecidableEq, Repr

theorem ScopeType.local_ne_function : ScopeType.local ≠ .function := by decide

theorem ScopeType.loop_ne_function : ScopeType.loop ≠ .function := by decide

inductive FlowControlPolicy
  | stay
  | return
  | break
deriving DecidableEq, Repr

/-- A scope; the newest entry comes first. `returnValue` names the cell of the return value, which
a scope shares with the scopes of its function: it is the `id` of the function's scope. -/
structure Scope where
  id : Nat
  returnValue : Nat
  type : ScopeType
  policy : FlowControlPolicy := .stay
  entries : List (String × Entity) := []
  types : List FlowType := []

namespace Scope

def findEntity (s : Scope) (name : String) : Option Entity := s.entries.lookup name

def findType (s : Scope) (name : String) : Option FlowType := s.types.find? fun t => t.name == name

end Scope

/-- A variable: the id of the scope it is declared in, and its name. -/
structure Variable where
  scope : Nat
  name : String
deriving DecidableEq, Repr

/-- What a suspended evaluation is woken by. -/
inductive Wake
  /-- the delay is over -/
  | resumed
  /-- the delegate replies -/
  | replied (reply : List (String × Json))
  /-- the delegate fails -/
  | failed (what : String)
  /-- the wait for the delegate is over before it replies -/
  | expired
  /-- the `outer`-th wait for a workflow around here is over: this evaluation is destroyed -/
  | abandoned (outer : Nat)

/-- An interpreter, with the heap of its process. -/
structure State where
  heap : Heap
  /-- the cells of the return values -/
  returns : Nat → Option Entity
  /-- how many scopes have been pushed so far -/
  pushed : Nat
  current : Scope
  /-- the scopes below the current one, innermost first -/
  outer : List Scope
  schedule : List Wake

/-- The statement that set a return value. -/
inductive Origin
  | returnStatement
  | raise
  | tryExpression
deriving DecidableEq, Repr

inductive Action
  /-- new storage -/
  | alloc (k : Kind) (c : k.Content)
  /-- `x` is the variable that the path to `lhs` starts at -/
  | assign (x : Option Variable) (lhs rhs : Entity)
  /-- a value is inserted into a dictionary under a key, which is moved from -/
  | insert (dictionary key : Nat) (value : Entity)
  | declare (name : String) (value : Entity)
  | push (type : ScopeType)
  | pop
  /-- `return_value`, in the function whose cell is `owner` -/
  | returnValue (owner : Nat) (value : Entity) (origin : Origin)
  | breakLoop
  | wake
  | print (text : String)
  | request (kind : DictionaryKind) (message : Json)
  /-- a statement of the function whose cell is `owner` is executed -/
  | execute (owner : Nat) (statement : Ast.WorkflowStatement)
  /-- the wait for a workflow is over before the workflow -/
  | timeout

def Action.isTimeout : Action → Bool
  | .timeout => true
  | _ => false

def Action.isWake : Action → Bool
  | .wake => true
  | _ => false

theorem timeout_not_mem {l : List Action} (h : l.any Action.isTimeout = false) : .timeout ∉ l :=
  fun hm => Bool.noConfusion (h.symm.trans (List.any_eq_true.mpr ⟨_, hm, rfl⟩))

/-! ## Writing to the heap -/

/-- `entity::assign`: integers and arrays are written in place, everything else rebinds `lhs`. -/
def Heap.assign (h : Heap) (lhs rhs : Entity) : Except String (Heap × Entity) :=
  let invalidAssignment := Except.error <| "Invalid assignent. Expected '" ++ lhs.type.name ++
    "' while provided a '" ++ rhs.type.name ++ "'"
  match lhs with
  | .integer a =>
    match rhs with
    | .integer b => .ok (h.write .integer a (h.cell .integer b), lhs)
    | .real b => .ok (h.write .integer a (h.cell .real b).toInt64, lhs)
    | _ => invalidAssignment
  | .array a =>
    match rhs with
    | .array b => .ok (h.write .array a (h.cell .array b), lhs)
    | _ => invalidAssignment
  | lhs =>
    if !lhs.type.same rhs.type && !rhs.type.same .error then invalidAssignment else .ok (h, rhs)

/-- The heap after an assignment, whatever became of it. -/
def Heap.afterAssign (h : Heap) (lhs rhs : Entity) : Heap :=
  match h.assign lhs rhs with
  | .ok (h', _) => h'
  | .error _ => h

/-- `std::map::insert`, with a key that is moved out of its string. -/
def Heap.insert (h : Heap) (dictionary key : Nat) (value : Entity) : Heap :=
  let moved := h.write .string key ""
  moved.write .dictionary dictionary
    ((h.cell .dictionary dictionary).insert (h.cell .string key) value)

/-! ## The stack -/

namespace State

def scopes (s : State) : List Scope := s.current :: s.outer

def findEntity (s : State) (name : String) : Option Entity :=
  s.scopes.findSome? fun scope => scope.findEntity name

/-- The variable that a name refers to. -/
def variableOf (s : State) (name : String) : Option Variable :=
  (s.scopes.find? fun scope => (scope.findEntity name).isSome).map fun scope => ⟨scope.id, name⟩

def findType (s : State) (name : String) : Option FlowType :=
  s.scopes.findSome? fun scope => scope.findType name

def push (s : State) (type : ScopeType) : State :=
  let cell := if type = .function then s.pushed else s.current.returnValue
  { s with
    returns := if type = .function then Function.update s.returns s.pushed none else s.returns
    pushed := s.pushed + 1
    current := { id := s.pushed, returnValue := cell, type }
    outer := s.current :: s.outer }

/-- The policy of a scope once the scope above it is popped. -/
def propagate (popped : Scope) (policy : FlowControlPolicy) : FlowControlPolicy :=
  match popped.policy, popped.type with
  | .stay, _ => policy
  | .return, .loop | .return, .local => .return
  | .break, .loop | .break, .local => .break
  | _, .function => policy

/-- There is always a scope below: the outermost one is never popped. -/
def pop (s : State) : State :=
  match s.outer with
  | [] => s
  | below :: outer =>
    { s with current := { below with policy := propagate s.current below.policy }, outer }

theorem pop_heap (s : State) : s.pop.heap = s.heap := by
  unfold pop
  split <;> rfl

theorem pop_returns (s : State) : s.pop.returns = s.returns := by
  unfold pop
  split <;> rfl

def returnValue (s : State) (value : Entity) : State :=
  { s with
    returns := Function.update s.returns s.current.returnValue (some value)
    current := { s.current with policy := .return } }

def breakLoop (s : State) : State := { s with current := { s.current with policy := .break } }

def declare (s : State) (name : String) (value : Entity) : State :=
  { s with current := { s.current with entries := (name, value) :: s.current.entries } }

def apply (s : State) : Action → State
  | .alloc k c => { s with heap := s.heap.alloc k c }
  | .assign _ lhs rhs => { s with heap := s.heap.afterAssign lhs rhs }
  | .insert dictionary key value => { s with heap := s.heap.insert dictionary key value }
  | .declare name value => s.declare name value
  | .push type => s.push type
  | .pop => s.pop
  | .returnValue _ value _ => s.returnValue value
  | .breakLoop => s.breakLoop
  | .wake => { s with schedule := s.schedule.tail }
  | .print _ | .request _ _ | .execute _ _ | .timeout => s

/-- The constructor of `Interpreter`: one function scope with the static types and the free
functions. -/
def constructed (heap : Heap) (schedule : List Wake) : State where
  heap := heap
  returns := fun _ => none
  pushed := 1
  current :=
    { id := 0
      returnValue := 0
      type := .function
      entries := [("str_format", .freeFunction .strFormat), ("panic", .freeFunction .panic),
        ("println", .freeFunction .println)]
      types := FlowType.entityTypeList.reverse }
  outer := []
  schedule := schedule

/-- A new interpreter with its id. -/
def initial (heap : Heap) (instanceId : Entity) (schedule : List Wake) : State :=
  (constructed heap schedule).declare "instance_id" instanceId

end State

/-- The first interpreter of a new process, whose waits end in this way. Its id is `1`. -/
def State.fresh (schedule : List Wake) : State :=
  .initial (Heap.initial.alloc .integer 1) (.integer 1) schedule

/-! ## Evaluations -/

inductive Exception
  /-- `EvaluationError` -/
  | evaluation (what : String)
  | panic (what : String)
  /-- any other `std::exception` -/
  | std (what : String)
  /-- no exception: the program is broken off, for want of stack or by the use of what is not
  there -/
  | crash
deriving DecidableEq, Repr

abbrev Eval := Coroutine State.apply Exception

/-- What an operation of a type returns: a value, or the text of an `EvaluationError`. -/
abbrev EvalResult := Except String Entity

namespace Eval

def gets {α : Type} (f : State → α) : Eval α := Coroutine.gets f

def perform (a : Action) : Eval Unit := Coroutine.perform a

def throw {α : Type} (e : Exception) : Eval α := Coroutine.throw e

/-- New storage with this content; its address. -/
def alloc (k : Kind) (c : k.Content) : Eval Nat := do
  let a ← gets fun s => s.heap.next
  perform (.alloc k c)
  pure a

/-- `entity::ensure_value` -/
def ensureValue : EvalResult → Eval Entity
  | .ok value => pure value
  | .error what => throw (.evaluation what)

end Eval

/-- `Interpreter::set_instance_id` -/
def setInstanceId (id : Int64) : Eval Unit := do
  let a ← Eval.alloc .integer id
  Eval.perform (.declare "instance_id" (.integer a))

theorem setInstanceId_after (id : Int64) (heap : Heap) (schedule : List Wake) :
    (setInstanceId id).after (.constructed heap schedule) =
      .initial (heap.alloc .integer id) (.integer heap.next) schedule := rfl

end EzCpp.Flow
