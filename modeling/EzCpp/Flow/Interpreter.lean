import EzCpp.Flow.Types

/-!
# The interpreter

`Interpreter::eval`, for each kind of syntax. A workflow invocation evaluates a body that is not
part of the syntax it stands in, so the evaluators take `invoke` as a parameter and recurse on the
syntax alone; `invoke` ties the knot, and breaks off where the nesting of invocations is deeper
than the stack (`Exception.crash`).

The statements that have statements in them (`evalStatement` to `evalRepeat`) take the evaluators
of their conditions and of the other statements as parameters (`Leaves`).

`when_any` is taken at its word: a wait for a workflow goes on once, with what comes first.
-/

namespace EzCpp.Flow

open EzCpp.Lib Ast

/-- A workflow invocation, as it is awaited. -/
structure WorkflowInvocation where
  definition : WorkflowDefinition
  instanciation : Instanciation
  arguments : CallArguments

variable (host : Host) (invoke : WorkflowInvocation → Eval Entity)

/-! ## Expressions -/

/-- `to_value` -/
def evalLiteral : Literal → Eval Entity
  | .boolean b => return .boolean (← Eval.alloc .boolean b)
  | .integer i => return .integer (← Eval.alloc .integer i)
  | .real r => return .real (← Eval.alloc .real r)
  | .string s => return .string (← Eval.alloc .string s)
  | .duration d => return .duration (← Eval.alloc .duration d)

def evalProperties (e : Entity) : List Identifier → Eval Entity
  | [] => pure e
  | name :: names => do
    let property ← Eval.ensureValue (← getProperty e name)
    evalProperties property names

def evalIdentifierPath (path : IdentifierPath) : Eval Entity := do
  match ← Eval.gets fun s => s.findEntity path.front with
  | none => Eval.throw (.evaluation ("Use of undeclared identifier '" ++ path.front ++ "'"))
  | some e => evalProperties e path.properties

def evalUnaryOp (op : UnaryOperator) (value : Entity) : Eval Entity := do
  Eval.ensureValue (← unaryOp op value)

def evalBinaryOp (op : BinaryOp) (lhs rhs : Entity) : Eval Entity := do
  Eval.ensureValue (← binaryOp op lhs rhs)

def multiplicativeOp : MultiplicativeOperator → BinaryOp
  | .mult => .mult
  | .div => .div

def additiveOp : AdditiveOperator → BinaryOp
  | .plus => .plus
  | .minus => .minus

def relationalOp : RelationalOperator → BinaryOp
  | .less => .less
  | .lessEq => .lessEq
  | .greater => .greater
  | .greaterEq => .greaterEq

def logicalOp : LogicalOperator → BinaryOp
  | .and => .and
  | .or => .or

/-- `eq`, `not_eq`, and `in`, which is an operator of its right-hand side. -/
def evalEqualityOp (op : EqualityOperator) (lhs rhs : Entity) : Eval Entity :=
  match op with
  | .eq => evalBinaryOp .eq lhs rhs
  | .notEq => evalBinaryOp .notEq lhs rhs
  | .contained => evalBinaryOp .contains rhs lhs
  | .is => Eval.throw .crash

/-- `to_type_name` -/
def toTypeName (e : RelationalExpression) : String :=
  match e.first.first.first with
  | .mk _ (.identifierPath path) => path.front
  | _ => "<unknow type>"

/-- The operator `is`. -/
def evalIs (lhs : Entity) (term : RelationalExpression) : Eval Entity := do
  let typeName := toTypeName term
  match ← Eval.gets fun s => s.findType typeName with
  | none => Eval.throw (.evaluation ("'" ++ typeName ++ "' is not a type"))
  | some type => return .boolean (← Eval.alloc .boolean (lhs.type.same type))

def expectDuration (value : Entity) : Eval Nat :=
  match value with
  | .duration a => pure a
  | value => Eval.throw (.evaluation ("Expected a '" ++ FlowType.duration.name ++ "' got a '" ++
      value.type.name ++ "' "))

/-- `eval_timeout`, on the value of the expression. -/
def evalTimeout (value : Entity) : Eval Entity := do
  let a ← expectDuration value
  if (← Eval.gets fun s => (s.heap.cell .duration a).count) = 0 then
    return .duration (← Eval.alloc .duration ⟨1, .ms⟩)
  else return value

/-- `eval_await` of a workflow: `when_any` of its evaluation and the delay. -/
def awaitWorkflow (invocation : WorkflowInvocation) : Eval Entity :=
  (invoke invocation).onAbandoned do
    Eval.perform .timeout
    return .error "Operation timeout"

/-- `eval_await` of a request whose reply has this kind. -/
def awaitRequest (kind reply : DictionaryKind) (a : Nat) : Eval Entity := do
  let request ← requestToJson a
  Eval.perform (.request kind request)
  let wake ← Eval.gets fun s => s.schedule.head?
  Eval.perform .wake
  match wake with
  | some (.replied members) =>
    return .dictionary reply (← Eval.alloc .dictionary (← fromJsonObject .empty members))
  | some (.failed what) => Eval.throw (.std what)
  | some (.abandoned outer) => Coroutine.abandon outer
  | _ => return .error "Operation timeout"

/-- The requests that can be awaited, with the kinds of their replies. -/
def replyKind : DictionaryKind → Option DictionaryKind
  | .campaign => some .campaignReply
  | .action => some .actionReply
  | .deviceInfoRequest => some .deviceInfoReply
  | .httpRequest => some .httpReply
  | _ => none

/-- The timeout of an await is evaluated only when what is awaited is an awaitable. -/
def evalAwait (awaitable : Entity) (expression : Expression) (duration : Eval Entity) :
    Eval Entity := do
  let notAwaitable : Eval Entity := Eval.throw (.evaluation
    ("Expression of type '" ++ awaitable.type.name ++ "' in not an awaitable"))
  match awaitable with
  | .workflowInvocation w instanciation arguments =>
    let _ ← evalTimeout (← duration)
    awaitWorkflow invoke ⟨w, instanciation, arguments⟩
  | .workflowDefinition w =>
    let _ ← evalTimeout (← duration)
    awaitWorkflow invoke ⟨w, .expression expression, []⟩
  | .dictionary kind a =>
    match replyKind kind with
    | some reply =>
      let _ ← evalTimeout (← duration)
      awaitRequest kind reply a
    | none => notAwaitable
  | _ => notAwaitable

/-- The cell of the return value of the function that is evaluated. -/
def returnCell : Eval Nat := Eval.gets fun s => s.current.returnValue

def setReturnValue (value : Entity) (origin : Origin) : Eval Unit := do
  Eval.perform (.returnValue (← returnCell) value origin)

/-- What is left of an entity that has been moved from, if it is an error: one without a text. Its
pointer is null, but there is nothing behind it that could be read. -/
def Entity.movedFrom : Entity → Entity
  | .error _ => .error ""
  | e => e

/-- `try`: an error is moved to the return value, and what is left of it is the value of the
expression. -/
def evalTry (value : Entity) : Eval Entity :=
  match value with
  | .error what => do
    setReturnValue (.error what) .tryExpression
    return (Entity.error what).movedFrom
  | value => return value

/-- A function call, once its callee and its arguments have values. -/
def evalCallable (call : FunctionCall) (callable : Entity) (arguments : Eval CallArguments) :
    Eval Entity :=
  match callable with
  | .freeFunction f => do
    Eval.ensureValue (← callFreeFunction host f (← arguments))
  | .workflowDefinition w => do
    return .workflowInvocation w (.functionCall call) (← arguments)
  | .memberFunction _ _ =>
    match call.path.popBack with
    | none => Eval.throw .crash
    | some path => do
      let self ← evalIdentifierPath path
      Eval.ensureValue (← callMemFunction self call.path.back (← arguments))
  | _ => Eval.throw (.evaluation ("'" ++ call.path.code ++ "' is not a callable"))

mutual

def evalPrimary : PrimaryExpression → Eval Entity
  | .identifierPath path => evalIdentifierPath path
  | .literal l => evalLiteral l
  | .functionCall ⟨path, arguments⟩ => do
    let callable ← evalIdentifierPath path
    evalCallable host ⟨path, arguments⟩ callable (evalCallArguments arguments)
  | .array elements => do
    let values ← evalElements elements
    return .array (← Eval.alloc .array values)
  | .dictionary elements => do
    let entries ← evalAssignments .empty elements
    return .dictionary .dictionary (← Eval.alloc .dictionary entries)
  | .expression e => evalExpression e
  | .awaitExpression ⟨expression, duration⟩ => do
    let awaitable ← evalExpression expression
    evalAwait invoke awaitable expression (evalExpression duration)
  | .tryExpression e => do evalTry (← evalExpression e)

def evalCallArguments : List (FunctionArgument Expression) → Eval CallArguments
  | [] => return []
  | ⟨name, value⟩ :: arguments => do
    let value ← evalExpression value
    let values ← evalCallArguments arguments
    return (name, value) :: values

def evalElements : List Expression → Eval (List Entity)
  | [] => return []
  | e :: es => do
    let value ← evalExpression e
    let values ← evalElements es
    return value :: values

def evalAssignments (entries : SortedMap String Entity) :
    List (Assignment Expression) → Eval (SortedMap String Entity)
  | [] => return entries
  | ⟨name, value⟩ :: elements => do
    let value ← evalExpression value
    evalAssignments (entries.insert name value) elements

def evalUnary : UnaryExpression → Eval Entity
  | .mk op expression => do
    let value ← evalPrimary expression
    match op with
    | none => return value
    | some op => evalUnaryOp op value

def evalMultiplicative : MultiplicativeExpression → Eval Entity
  | ⟨first, terms⟩ => do evalMultiplicativeTerms (← evalUnary first) terms

def evalMultiplicativeTerms (lhs : Entity) :
    List (Operation UnaryExpression MultiplicativeOperator) → Eval Entity
  | [] => return lhs
  | ⟨op, term⟩ :: terms => do
    let rhs ← evalUnary term
    evalMultiplicativeTerms (← evalBinaryOp (multiplicativeOp op) lhs rhs) terms

def evalAdditive : AdditiveExpression → Eval Entity
  | ⟨first, terms⟩ => do evalAdditiveTerms (← evalMultiplicative first) terms

def evalAdditiveTerms (lhs : Entity) :
    List (Operation MultiplicativeExpression AdditiveOperator) → Eval Entity
  | [] => return lhs
  | ⟨op, term⟩ :: terms => do
    let rhs ← evalMultiplicative term
    evalAdditiveTerms (← evalBinaryOp (additiveOp op) lhs rhs) terms

def evalRelational : RelationalExpression → Eval Entity
  | ⟨first, terms⟩ => do evalRelationalTerms (← evalAdditive first) terms

def evalRelationalTerms (lhs : Entity) :
    List (Operation AdditiveExpression RelationalOperator) → Eval Entity
  | [] => return lhs
  | ⟨op, term⟩ :: terms => do
    let rhs ← evalAdditive term
    evalRelationalTerms (← evalBinaryOp (relationalOp op) lhs rhs) terms

def evalEquality : EqualityExpression → Eval Entity
  | ⟨first, terms⟩ => do evalEqualityTerms (← evalRelational first) terms

def evalEqualityTerms (lhs : Entity) :
    List (Operation RelationalExpression EqualityOperator) → Eval Entity
  | [] => return lhs
  | ⟨op, term⟩ :: terms => do
    if op = .is then evalEqualityTerms (← evalIs lhs term) terms
    else
      let rhs ← evalRelational term
      evalEqualityTerms (← evalEqualityOp op lhs rhs) terms

def evalLogical : LogicalExpression → Eval Entity
  | ⟨first, terms⟩ => do evalLogicalTerms (← evalEquality first) terms

def evalLogicalTerms (lhs : Entity) :
    List (Operation EqualityExpression LogicalOperator) → Eval Entity
  | [] => return lhs
  | ⟨op, term⟩ :: terms => do
    let rhs ← evalEquality term
    evalLogicalTerms (← evalBinaryOp (logicalOp op) lhs rhs) terms

def evalExpression : Expression → Eval Entity
  | .mk logical => evalLogical logical

end

/-! ## Simple statements -/

def checkUndeclared (name : String) : Eval Unit := do
  if (← Eval.gets fun s => s.current.findEntity name).isSome then
    Eval.throw (.evaluation ("'" ++ name ++ "' already declaraed in the current scope "))

/-- A variable gets a value of its type, made from a copy. -/
def constructCopy (type : FlowType) (arguments : Entity) : Eval Entity := do
  Eval.ensureValue (← construct host type (← copy arguments))

def evalVariableDeclaration (name typeName : String) (expression : Eval Entity) : Eval Unit := do
  checkUndeclared name
  match ← Eval.gets fun s => s.findType typeName with
  | none => Eval.throw (.evaluation ("Unknown type '" ++ typeName ++ "'"))
  | some type => do
    Eval.perform (.declare name (← constructCopy host type (← expression)))

def evalWorkflowDefinition (w : WorkflowDefinition) : Eval Unit := do
  checkUndeclared w.name
  Eval.perform (.declare w.name (.workflowDefinition w))

/-- What `entity::assign` returns is not used. -/
def evalAssignment (path : IdentifierPath) (expression : Eval Entity) : Eval Unit := do
  let lhs ← evalIdentifierPath path
  let x ← Eval.gets fun s => s.variableOf path.front
  let value ← expression
  let _ ← assign x lhs value

def evalDelay (expression : Eval Entity) : Eval Unit := do
  let _ ← expectDuration (← expression)
  let wake ← Eval.gets fun s => s.schedule.head?
  Eval.perform .wake
  match wake with
  | some (.abandoned outer) => Coroutine.abandon outer
  | _ => pure ()

/-- The error that is raised. -/
def raised (value : Entity) : Eval Entity :=
  match value with
  | .string a => return .error (← Eval.gets fun s => s.heap.cell .string a)
  | .error what => pure (.error what)
  | _ => Eval.throw (.evaluation "Expecting a string or error expression")

/-- A statement that has no statements in it. -/
def evalSimple : WorkflowStatement → Eval Unit
  | .importStatement _ => pure ()
  | .variableDeclaration name type expression =>
    evalVariableDeclaration host name type
      (expression.elim (pure .void) (evalExpression host invoke))
  | .assignment path e => evalAssignment path (evalExpression host invoke e)
  | .delay e => evalDelay (evalExpression host invoke e)
  | .returnStatement e => do setReturnValue (← evalExpression host invoke e) .returnStatement
  | .raise e => do setReturnValue (← raised (← evalExpression host invoke e)) .raise
  | .breakStatement => Eval.perform .breakLoop
  | .expression e => do let _ ← evalExpression host invoke e
  | .workflowDefinition w => evalWorkflowDefinition w
  | .ifBlock _ | .repeatBlock _ => Eval.throw .crash

/-- A condition is converted unless it is a boolean. -/
def convertCondition (condition : Entity) : Eval Entity :=
  match condition with
  | .boolean _ => pure condition
  | condition => Eval.ensureValue (convert condition .boolean)

/-- The value of a condition. -/
def evalBoolean (e : Expression) : Eval Bool := do
  match ← convertCondition (← evalExpression host invoke e) with
  | .boolean a => Eval.gets fun s => s.heap.cell .boolean a
  | _ => Eval.throw (.std "bad_variant_access")

/-! ## Control statements -/

/-- The evaluators of what the control statements are about. -/
structure Leaves where
  condition : Expression → Eval Bool
  simple : WorkflowStatement → Eval Unit

def recordStatement (statement : WorkflowStatement) : Eval Unit := do
  Eval.perform (.execute (← returnCell) statement)

/-- Go on as long as the policy is `Stay`. -/
def ifStay (m : Eval Unit) : Eval Unit := do
  if (← Eval.gets fun s => s.current.policy) = .stay then m

/-- The scope is popped however the evaluation of its statements ends. -/
def evalScope (type : ScopeType) (statements : Eval Unit) : Eval Unit := do
  Eval.perform (.push type)
  statements.onExit .pop

/-- Whether the condition holds; where it does, the scope is evaluated. -/
def evalCondition (condition : Eval Bool) (statements : Eval Unit) : Eval Bool := do
  if ← condition then
    evalScope .local statements
    return true
  else return false

def evalRepeat (statements : Eval Unit) : Nat → Eval Unit
  | 0 => pure ()
  | count + 1 => do
    evalScope .loop statements
    ifStay (evalRepeat statements count)

section Control

variable (leaves : Leaves)

mutual

def evalStatement (statement : WorkflowStatement) : Eval Unit := do
  recordStatement statement
  match statement with
  | .ifBlock ⟨⟨condition, statements⟩, elifBlocks, elseBlock⟩ => do
    let evaluated ← evalCondition (leaves.condition condition) (evalStatements statements)
    ifStay <| if evaluated then pure () else
      evalElifBlocks elifBlocks <|
        if elseBlock.isEmpty then pure () else evalScope .local (evalStatements elseBlock)
  | .repeatBlock ⟨statements⟩ => evalRepeat (evalStatements statements) host.maxLoopCount
  | statement => leaves.simple statement

/-- The statements of a scope, or of a program. -/
def evalStatements : List WorkflowStatement → Eval Unit
  | [] => pure ()
  | statement :: statements => do
    evalStatement statement
    ifStay (evalStatements statements)

def evalElifBlocks (blocks : List (ConditionBlock WorkflowStatement)) (otherwise : Eval Unit) :
    Eval Unit :=
  match blocks with
  | [] => otherwise
  | ⟨condition, statements⟩ :: blocks => do
    let evaluated ← evalCondition (leaves.condition condition) (evalStatements statements)
    if evaluated then pure () else ifStay (evalElifBlocks blocks otherwise)

end

end Control

/-! ## Workflow invocations and programs -/

/-- An error at a place that only a function call has. -/
def Instanciation.error {α : Type} (what : String) : Instanciation → Eval α
  | .functionCall _ => Eval.throw (.evaluation what)
  | .expression _ => Eval.throw (.std "bad_variant_access")

/-- The return type that is declared, `Void` where there is none. -/
def returnType (w : WorkflowDefinition) : Eval FlowType := do
  match w.signature.bind Signature.returnType with
  | none => return .void
  | some name =>
    match ← Eval.gets fun s => s.findType name with
    | some type => return type
    | none => Eval.throw (.evaluation ("Unknown return type " ++ name ++ " not found"))

def argumentOf (args : CallArguments) (name : String) (index : Nat) : Option Entity :=
  args.find name <|> args[index]?.map Prod.snd

/-- The arguments from the `index`-th input on become variables of the scope. -/
def bindArguments (invocation : WorkflowInvocation) (first : Option Declaration) (index : Nat) :
    List Declaration → Eval Unit
  | [] => pure ()
  | input :: inputs => do
    match argumentOf invocation.arguments input.name index with
    | none => Eval.throw (.std "out_of_range")
    | some argument =>
      match ← Eval.gets fun s => s.findType input.type with
      | none =>
        -- the type in the message is the first input's
        invocation.instanciation.error
          ("Type " ++ (first.map Declaration.type).getD "" ++ " not found")
      | some expected =>
        if !expected.same argument.type then
          invocation.instanciation.error ("Type mismatch for argument '" ++ input.name ++
            "': expected a '" ++ input.type ++ "' while got a '" ++ argument.type.name ++ "'")
        else
          Eval.perform (.declare input.name argument)
          bindArguments invocation first (index + 1) inputs

def evalArguments (invocation : WorkflowInvocation) : Eval Unit :=
  match invocation.definition.signature with
  | none => pure ()
  | some signature =>
    if invocation.arguments.length ≠ signature.inputs.length then
      -- the count in the message is the number of arguments
      invocation.instanciation.error ("Invalid argument count: expected " ++
        toString invocation.arguments.length ++ " arguments")
    else bindArguments invocation signature.inputs.head? 0 signature.inputs

/-- The value of an invocation, from what its body has left in the cell of its return value. -/
def checkReturnValue (instanciation : Instanciation) (type : FlowType) (value : Option Entity) :
    Eval Entity :=
  if value.isNone && !type.same .void then
    instanciation.error "Workflow did not return any value"
  else
    let result := value.getD .void
    if !result.type.same type && !result.type.same .error then
      Eval.throw (.evaluation ("Invalid return type: expected a " ++ type.name ++ ", got a " ++
        result.type.name))
    else pure result

/-- The arguments and the body of an invocation. -/
def evalFunctionBody (evalBody : List WorkflowStatement → Eval Unit)
    (invocation : WorkflowInvocation) : Eval Unit := do
  evalArguments invocation
  evalScope .local (evalBody invocation.definition.statements)

/-- What an invocation does in the scope it has pushed. -/
def evalFunction (evalBody : List WorkflowStatement → Eval Unit) (invocation : WorkflowInvocation)
    (type : FlowType) : Eval Entity := do
  let cell ← returnCell
  evalFunctionBody evalBody invocation
  let value ← Eval.gets fun s => s.returns cell
  checkReturnValue invocation.instanciation type value

/-- `eval` of a workflow invocation. The scope is popped at the end, by no guard. -/
def evalInvocation (evalBody : List WorkflowStatement → Eval Unit)
    (invocation : WorkflowInvocation) : Eval Entity := do
  let type ← returnType invocation.definition
  Eval.perform (.push .function)
  let result ← evalFunction evalBody invocation type
  Eval.perform .pop
  return result

def evalLeaves : Leaves := ⟨evalBoolean host invoke, evalSimple host invoke⟩

/-- `eval` of an invocation, with invocations nested to this depth. -/
def evalInvocations (host : Host) : Nat → WorkflowInvocation → Eval Entity
  | 0, _ => Eval.throw .crash
  | depth + 1, invocation =>
    evalInvocation (evalStatements host (evalLeaves host (evalInvocations host depth))) invocation

section

variable (depth : Nat)

abbrev runExpression (e : Expression) : Eval Entity :=
  evalExpression host (evalInvocations host depth) e

abbrev runStatement (statement : WorkflowStatement) : Eval Unit :=
  evalStatement host (evalLeaves host (evalInvocations host depth)) statement

/-- `eval` of a program. -/
def evalProgram (program : Program) : Eval Unit :=
  evalStatements host (evalLeaves host (evalInvocations host depth)) program

end

end EzCpp.Flow
