import EzCpp.Flow.Interpreter

/-!
# What an expression can do

An expression allocates, inserts into dictionaries, prints, sends requests and is woken up; `try`
sets the return value, and an await evaluates a workflow. A contract that allows the first five
kinds of actions and the return value of `try` (`Admits`) is met by every expression as soon as it
is met by the wait for a workflow (`evalExpression_meets`); the proof follows the syntax. For
contracts that allow what statements do as well (`AdmitsStatements`) the same holds of every
statement (`evalStatement_meets`).
-/

namespace EzCpp.Flow

open EzCpp.Lib Ast

/-- The actions of expressions: none of them is about scopes. -/
def Action.ofExpression : Action → Prop
  | .alloc _ _ | .insert _ _ _ | .wake | .print _ | .request _ _ => True
  | _ => False

structure Admits (c : Contract State Action) : Prop where
  action : ∀ s a, Action.ofExpression a → c.returns s [a] (s.apply a)
  tryError : ∀ s what, c.returns s
    [.returnValue s.current.returnValue (.error what) .tryExpression] (s.returnValue (.error what))

section Expressions

set_option linter.unusedSectionVars false

variable {c : Contract State Action} (hc : Admits c)
include hc

theorem perform_meets {a : Action} (ha : Action.ofExpression a) : (Eval.perform a).Meets c :=
  .perform fun s => hc.action s a ha

theorem alloc_meets (k : Kind) (content : k.Content) : (Eval.alloc k content).Meets c :=
  .bind (.gets _) fun _ => .bind (perform_meets hc trivial) fun _ => .pure _

omit hc in
theorem ensureValue_meets (r : EvalResult) : (Eval.ensureValue r).Meets c := by
  cases r with
  | ok value => exact .pure value
  | error what => exact .throw _

/-! ## Operations of types -/

theorem constructDictionary_meets (k : DictionaryKind) (arg : Entity) :
    (constructDictionary k arg).Meets c := by
  unfold constructDictionary
  split
  next => exact .bind (alloc_meets hc _ _) fun _ => .pure _
  next => exact .pure _
  next =>
    refine .ite (.pure _) (.ite (.bind (.gets _) fun _ => ?_) (.pure _))
    exact .bind (alloc_meets hc _ _) fun _ => .pure _
  next => exact .pure _

theorem construct_meets (host : Host) (type : FlowType) (arg : Entity) :
    (construct host type arg).Meets c := by
  unfold construct
  split
  next => exact constructDictionary_meets hc _ _
  next =>
    split
    · exact .pure _
    · exact .throw _

/-- New storage with the content of another one. -/
theorem detach_meets (k : Kind) (f : State → k.Content) (g : Nat → Entity) :
    (Eval.gets f >>= fun content => Eval.alloc k content >>= fun a =>
      (pure (g a) : Eval Entity)).Meets c :=
  .bind (.gets _) fun _ => .bind (alloc_meets hc _ _) fun _ => .pure _

theorem copy_meets (e : Entity) : (copy e).Meets c := by
  unfold copy
  split <;> first | exact detach_meets hc _ _ _ | exact .pure _

theorem constructCopy_meets (host : Host) (type : FlowType) (arguments : Entity) :
    (constructCopy host type arguments).Meets c :=
  .bind (copy_meets hc _) fun _ => .bind (construct_meets hc host type _) fun _ =>
    ensureValue_meets _

theorem unaryOp_meets (op : UnaryOperator) (arg : Entity) : (unaryOp op arg).Meets c := by
  unfold unaryOp
  split
  case h_2 => exact .bind (.gets _) fun _ => .bind (alloc_meets hc _ _) fun _ => .pure _
  all_goals exact .pure _

theorem Number.toEntity_meets (n : Number) : n.toEntity.Meets c := by
  cases n <;> exact .bind (alloc_meets hc _ _) fun _ => .pure _

theorem binaryOp_meets (op : BinaryOp) (self other : Entity) : (binaryOp op self other).Meets c := by
  unfold binaryOp
  split
  iterate 2
    next =>
      refine .bind (.gets _) fun n => ?_
      cases n with
      | some n => exact .bind (Number.toEntity_meets hc n) fun _ => .pure _
      | none => exact .pure _
  next =>
    refine .ite ?_ (.pure _)
    split
    · exact .bind (.gets _) fun _ => .bind (alloc_meets hc _ _) fun _ => .pure _
    · exact .pure _
  next => exact .pure _

theorem getProperty_meets (self : Entity) (name : String) : (getProperty self name).Meets c := by
  unfold getProperty
  have size : ∀ f : State → Int64, (Eval.gets f >>= fun size => Eval.alloc .integer size >>= fun a =>
      (pure (.ok (.integer a)) : Eval EvalResult)).Meets c :=
    fun _ => .bind (.gets _) fun _ => .bind (alloc_meets hc _ _) fun _ => .pure _
  split
  next => exact .ite (size _) (.pure _)
  next =>
    refine .ite (size _) (.ite (.pure _) (.bind (.gets _) fun found => ?_))
    cases found <;> exact .pure _
  next => exact .pure _

theorem insert_meets (k : DictionaryKind) (a : Nat) (args : CallArguments) :
    (insert k a args).Meets c := by
  unfold insert
  refine .ite (.pure _) (.ite (.pure _) ?_)
  split
  · exact .bind (perform_meets hc trivial) fun _ => .pure _
  · exact .pure _

theorem callMemFunction_meets (self : Entity) (name : String) (args : CallArguments) :
    (callMemFunction self name args).Meets c := by
  unfold callMemFunction
  split
  · exact .ite (insert_meets hc _ _ _) (.pure _)
  · exact .pure _

/-! ## Free functions and JSON -/

omit hc in
theorem represent_meets (host : Host) (e : Entity) : (represent host e).Meets c := by
  refine .bind (.gets _) fun text => ?_
  cases text with
  | some text => exact .pure text
  | none => exact .throw _

omit hc in
theorem representAll_meets (host : Host) (es : List Entity) : (representAll host es).Meets c := by
  induction es with
  | nil => exact .pure _
  | cons e es ih => exact .bind (represent_meets host e) fun _ => .bind ih fun _ => .pure _

omit hc in
theorem formatArgs_meets (host : Host) (args : CallArguments) : (formatArgs host args).Meets c := by
  unfold formatArgs
  split
  next =>
    refine .bind (.gets _) fun _ => .ite (.pure _) (.bind (representAll_meets host _) fun _ => ?_)
    split <;> exact .pure _
  next => exact .pure _

theorem callFreeFunction_meets (host : Host) (f : Builtin) (args : CallArguments) :
    (callFreeFunction host f args).Meets c := by
  cases f with
  | println =>
    refine .bind (formatArgs_meets host args) fun text => ?_
    cases text <;> exact .bind (perform_meets hc trivial) fun _ => .pure _
  | panic => exact .bind (representAll_meets host _) fun _ => .throw _
  | strFormat =>
    refine .bind (formatArgs_meets host args) fun text => ?_
    cases text with
    | ok text => exact .bind (alloc_meets hc _ _) fun _ => .pure _
    | error what => exact .pure _

omit hc in
theorem requestToJson_meets (a : Nat) : (requestToJson a).Meets c := by
  refine .bind (.gets _) fun message => ?_
  split
  · exact .pure _
  · exact .throw _

mutual

theorem fromJson_meets : ∀ v : Json, (fromJson v).Meets c
  | .null => by rw [fromJson]; exact .pure _
  | .bool _ | .int64 _ | .uint64 _ | .double _ | .string _ => by
    rw [fromJson]; exact .bind (alloc_meets hc _ _) fun _ => .pure _
  | .array vs => by
    rw [fromJson]
    exact .bind (fromJsonArray_meets vs) fun _ => .bind (alloc_meets hc _ _) fun _ => .pure _
  | .object members => by
    rw [fromJson]
    exact .bind (fromJsonObject_meets _ members) fun _ =>
      .bind (alloc_meets hc _ _) fun _ => .pure _

theorem fromJsonArray_meets : ∀ vs : List Json, (fromJsonArray vs).Meets c
  | [] => by rw [fromJsonArray]; exact .pure _
  | v :: vs => by
    rw [fromJsonArray]
    exact .bind (fromJson_meets v) fun _ => .bind (fromJsonArray_meets vs) fun _ => .pure _

theorem fromJsonObject_meets : ∀ (entries : SortedMap String Entity)
    (members : List (String × Json)), (fromJsonObject entries members).Meets c
  | _, [] => by rw [fromJsonObject]; exact .pure _
  | _, (_, v) :: members => by
    rw [fromJsonObject]
    refine .bind (fromJson_meets v) fun e => ?_
    cases e <;> exact fromJsonObject_meets _ members

end

/-! ## Evaluators -/

theorem evalLiteral_meets (l : Literal) : (evalLiteral l).Meets c := by
  cases l <;> exact .bind (alloc_meets hc _ _) fun _ => .pure _

theorem evalProperties_meets (e : Entity) (names : List Identifier) :
    (evalProperties e names).Meets c := by
  induction names generalizing e with
  | nil => exact .pure e
  | cons name names ih =>
    exact .bind (getProperty_meets hc e name) fun _ => .bind (ensureValue_meets _) fun _ => ih _

theorem evalIdentifierPath_meets (path : IdentifierPath) : (evalIdentifierPath path).Meets c := by
  refine .bind (.gets _) fun e => ?_
  cases e with
  | none => exact .throw _
  | some e => exact evalProperties_meets hc e _

theorem evalUnaryOp_meets (op : UnaryOperator) (value : Entity) :
    (evalUnaryOp op value).Meets c :=
  .bind (unaryOp_meets hc op value) fun _ => ensureValue_meets _

theorem evalBinaryOp_meets (op : BinaryOp) (lhs rhs : Entity) :
    (evalBinaryOp op lhs rhs).Meets c :=
  .bind (binaryOp_meets hc op lhs rhs) fun _ => ensureValue_meets _

theorem evalEqualityOp_meets (op : EqualityOperator) (lhs rhs : Entity) :
    (evalEqualityOp op lhs rhs).Meets c := by
  cases op with
  | is => exact .throw _
  | eq | notEq | contained => exact evalBinaryOp_meets hc _ _ _

theorem evalIs_meets (lhs : Entity) (term : RelationalExpression) :
    (evalIs lhs term).Meets c := by
  refine .bind (.gets _) fun type => ?_
  cases type with
  | none => exact .throw _
  | some type => exact .bind (alloc_meets hc _ _) fun _ => .pure _

omit hc in
theorem expectDuration_meets (value : Entity) : (expectDuration value).Meets c := by
  unfold expectDuration
  split
  · exact .pure _
  · exact .throw _

theorem evalTimeout_meets (value : Entity) : (evalTimeout value).Meets c :=
  .bind (expectDuration_meets value) fun _ => .bind (.gets _) fun _ =>
    .ite (.bind (alloc_meets hc _ _) fun _ => .pure _) (.pure _)

theorem awaitRequest_meets (kind reply : DictionaryKind) (a : Nat) :
    (awaitRequest kind reply a).Meets c := by
  refine .bind (requestToJson_meets a) fun _ => .bind (perform_meets hc trivial) fun _ =>
    .bind (.gets _) fun wake => .bind (perform_meets hc trivial) fun _ => ?_
  split
  next =>
    exact .bind (fromJsonObject_meets hc _ _) fun _ => .bind (alloc_meets hc _ _) fun _ => .pure _
  next => exact .throw _
  next => exact .abandon _
  next => exact .pure _

theorem evalTry_meets (value : Entity) : (evalTry value).Meets c := by
  unfold evalTry
  split
  next what =>
    have set : (setReturnValue (.error what) .tryExpression).Meets c := fun s => hc.tryError s what
    exact .bind set fun _ => .pure _
  next => exact .pure _

theorem evalCallable_meets (host : Host) (call : FunctionCall) (callable : Entity)
    {arguments : Eval CallArguments} (ha : arguments.Meets c) :
    (evalCallable host call callable arguments).Meets c := by
  unfold evalCallable
  split
  next => exact .bind ha fun _ => .bind (callFreeFunction_meets hc _ _ _) fun _ => ensureValue_meets _
  next => exact .bind ha fun _ => .pure _
  next =>
    split
    · exact .throw _
    · exact .bind (evalIdentifierPath_meets hc _) fun _ => .bind ha fun _ =>
        .bind (callMemFunction_meets hc _ _ _) fun _ => ensureValue_meets _
  next => exact .throw _

variable (host : Host) {invoke : WorkflowInvocation → Eval Entity}
  (hi : ∀ invocation, (awaitWorkflow invoke invocation).Meets c)
include hi

theorem evalAwait_meets (awaitable : Entity) (e : Expression) {duration : Eval Entity}
    (hd : duration.Meets c) : (evalAwait invoke awaitable e duration).Meets c := by
  have timed : ∀ {m : Eval Entity}, m.Meets c →
      (duration >>= fun value => evalTimeout value >>= fun _ => m).Meets c :=
    fun hm => .bind hd fun _ => .bind (evalTimeout_meets hc _) fun _ => hm
  unfold evalAwait
  split
  next => exact timed (hi _)
  next => exact timed (hi _)
  next kind a =>
    split
    · exact timed (awaitRequest_meets hc _ _ _)
    · exact .throw _
  next => exact .throw _

mutual

theorem evalPrimary_meets : ∀ e, (evalPrimary host invoke e).Meets c
  | .identifierPath path => by rw [evalPrimary]; exact evalIdentifierPath_meets hc path
  | .literal l => by rw [evalPrimary]; exact evalLiteral_meets hc l
  | .functionCall ⟨path, arguments⟩ => by
    rw [evalPrimary]
    exact .bind (evalIdentifierPath_meets hc path) fun _ =>
      evalCallable_meets hc host _ _ (evalCallArguments_meets arguments)
  | .array elements => by
    rw [evalPrimary]
    exact .bind (evalElements_meets elements) fun _ => .bind (alloc_meets hc _ _) fun _ => .pure _
  | .dictionary elements => by
    rw [evalPrimary]
    exact .bind (evalAssignments_meets _ elements) fun _ =>
      .bind (alloc_meets hc _ _) fun _ => .pure _
  | .expression e => by rw [evalPrimary]; exact evalExpression_meets e
  | .awaitExpression ⟨expression, duration⟩ => by
    rw [evalPrimary]
    exact .bind (evalExpression_meets expression) fun _ =>
      evalAwait_meets hc hi _ _ (evalExpression_meets duration)
  | .tryExpression e => by
    rw [evalPrimary]
    exact .bind (evalExpression_meets e) fun _ => evalTry_meets hc _

theorem evalCallArguments_meets : ∀ args, (evalCallArguments host invoke args).Meets c
  | [] => by rw [evalCallArguments]; exact .pure _
  | ⟨_, value⟩ :: args => by
    rw [evalCallArguments]
    exact .bind (evalExpression_meets value) fun _ =>
      .bind (evalCallArguments_meets args) fun _ => .pure _

theorem evalElements_meets : ∀ es, (evalElements host invoke es).Meets c
  | [] => by rw [evalElements]; exact .pure _
  | e :: es => by
    rw [evalElements]
    exact .bind (evalExpression_meets e) fun _ => .bind (evalElements_meets es) fun _ => .pure _

theorem evalAssignments_meets : ∀ entries elements,
    (evalAssignments host invoke entries elements).Meets c
  | _, [] => by rw [evalAssignments]; exact .pure _
  | _, ⟨_, value⟩ :: elements => by
    rw [evalAssignments]
    exact .bind (evalExpression_meets value) fun _ => evalAssignments_meets _ elements

theorem evalUnary_meets : ∀ e, (evalUnary host invoke e).Meets c
  | .mk op e => by
    rw [evalUnary]
    refine .bind (evalPrimary_meets e) fun value => ?_
    cases op with
    | none => exact .pure _
    | some op => exact evalUnaryOp_meets hc op value

theorem evalMultiplicative_meets : ∀ e, (evalMultiplicative host invoke e).Meets c
  | ⟨first, terms⟩ => by
    rw [evalMultiplicative]
    exact .bind (evalUnary_meets first) fun _ => evalMultiplicativeTerms_meets _ terms

theorem evalMultiplicativeTerms_meets : ∀ lhs terms,
    (evalMultiplicativeTerms host invoke lhs terms).Meets c
  | _, [] => by rw [evalMultiplicativeTerms]; exact .pure _
  | _, ⟨_, term⟩ :: terms => by
    rw [evalMultiplicativeTerms]
    exact .bind (evalUnary_meets term) fun _ => .bind (evalBinaryOp_meets hc _ _ _) fun _ =>
      evalMultiplicativeTerms_meets _ terms

theorem evalAdditive_meets : ∀ e, (evalAdditive host invoke e).Meets c
  | ⟨first, terms⟩ => by
    rw [evalAdditive]
    exact .bind (evalMultiplicative_meets first) fun _ => evalAdditiveTerms_meets _ terms

theorem evalAdditiveTerms_meets : ∀ lhs terms, (evalAdditiveTerms host invoke lhs terms).Meets c
  | _, [] => by rw [evalAdditiveTerms]; exact .pure _
  | _, ⟨_, term⟩ :: terms => by
    rw [evalAdditiveTerms]
    exact .bind (evalMultiplicative_meets term) fun _ =>
      .bind (evalBinaryOp_meets hc _ _ _) fun _ => evalAdditiveTerms_meets _ terms

theorem evalRelational_meets : ∀ e, (evalRelational host invoke e).Meets c
  | ⟨first, terms⟩ => by
    rw [evalRelational]
    exact .bind (evalAdditive_meets first) fun _ => evalRelationalTerms_meets _ terms

theorem evalRelationalTerms_meets : ∀ lhs terms,
    (evalRelationalTerms host invoke lhs terms).Meets c
  | _, [] => by rw [evalRelationalTerms]; exact .pure _
  | _, ⟨_, term⟩ :: terms => by
    rw [evalRelationalTerms]
    exact .bind (evalAdditive_meets term) fun _ => .bind (evalBinaryOp_meets hc _ _ _) fun _ =>
      evalRelationalTerms_meets _ terms

theorem evalEquality_meets : ∀ e, (evalEquality host invoke e).Meets c
  | ⟨first, terms⟩ => by
    rw [evalEquality]
    exact .bind (evalRelational_meets first) fun _ => evalEqualityTerms_meets _ terms

theorem evalEqualityTerms_meets : ∀ lhs terms, (evalEqualityTerms host invoke lhs terms).Meets c
  | _, [] => by rw [evalEqualityTerms]; exact .pure _
  | _, ⟨_, term⟩ :: terms => by
    rw [evalEqualityTerms]
    refine .ite (.bind (evalIs_meets hc _ _) fun _ => evalEqualityTerms_meets _ terms) ?_
    exact .bind (evalRelational_meets term) fun _ => .bind (evalEqualityOp_meets hc _ _ _) fun _ =>
      evalEqualityTerms_meets _ terms

theorem evalLogical_meets : ∀ e, (evalLogical host invoke e).Meets c
  | ⟨first, terms⟩ => by
    rw [evalLogical]
    exact .bind (evalEquality_meets first) fun _ => evalLogicalTerms_meets _ terms

theorem evalLogicalTerms_meets : ∀ lhs terms, (evalLogicalTerms host invoke lhs terms).Meets c
  | _, [] => by rw [evalLogicalTerms]; exact .pure _
  | _, ⟨_, term⟩ :: terms => by
    rw [evalLogicalTerms]
    exact .bind (evalEquality_meets term) fun _ => .bind (evalBinaryOp_meets hc _ _ _) fun _ =>
      evalLogicalTerms_meets _ terms

/-- **Every expression meets a contract that allows what expressions do.** -/
theorem evalExpression_meets : ∀ e, (evalExpression host invoke e).Meets c
  | .mk logical => by rw [evalExpression]; exact evalLogical_meets logical

end

omit hc hi in
theorem convertCondition_meets (condition : Entity) : (convertCondition condition).Meets c := by
  unfold convertCondition
  split
  · exact .pure _
  · exact ensureValue_meets _

theorem evalBoolean_meets (e : Expression) : (evalBoolean host invoke e).Meets c := by
  refine .bind (evalExpression_meets hc host hi e) fun _ =>
    .bind (convertCondition_meets _) fun _ => ?_
  split
  · exact .gets _
  · exact .throw _

end Expressions

/-! ## Statements -/

def Ast.WorkflowStatement.returns : WorkflowStatement → Bool
  | .returnStatement _ | .raise _ => true
  | _ => false

/-- The actions of simple statements that are not about a return value. -/
def Action.ofStatement : Action → Prop
  | .assign _ _ _ | .declare _ _ | .breakLoop => True
  | a => a.ofExpression

structure AdmitsSimple (c : Contract State Action) : Prop where
  action : ∀ s a, Action.ofStatement a → c.returns s [a] (s.apply a)
  tryError : ∀ s what, c.returns s
    [.returnValue s.current.returnValue (.error what) .tryExpression] (s.returnValue (.error what))

theorem AdmitsSimple.admits {c : Contract State Action} (hc : AdmitsSimple c) : Admits c where
  action s a ha := hc.action s a (by cases a <;> first | exact ha | trivial)
  tryError := hc.tryError

structure AdmitsStatements (c : Contract State Action) : Prop where
  action : ∀ s a, Action.ofStatement a → c.returns s [a] (s.apply a)
  execute : ∀ s statement, c.returns s [.execute s.current.returnValue statement] s
  returnValue : ∀ s value origin, c.returns s
    [.returnValue s.current.returnValue value origin] (s.returnValue value)
  scope : ∀ type {m : Eval Unit}, m.Meets c → (evalScope type m).Meets c

theorem AdmitsStatements.simple {c : Contract State Action} (hc : AdmitsStatements c) :
    AdmitsSimple c where
  action := hc.action
  tryError s what := hc.returnValue s (.error what) .tryExpression

theorem AdmitsStatements.admits {c : Contract State Action} (hc : AdmitsStatements c) :
    Admits c := hc.simple.admits

section Simple

variable {c : Contract State Action} (hc : AdmitsSimple c)
include hc

theorem performStatement_meets {a : Action} (ha : Action.ofStatement a) :
    (Eval.perform a).Meets c :=
  .perform fun s => hc.action s a ha

omit hc in
theorem checkUndeclared_meets (name : String) : (checkUndeclared name).Meets c :=
  .bind (.gets _) fun _ => .ite (.throw _) (.pure _)

theorem evalVariableDeclaration_meets (host : Host) (name type : String) {expression : Eval Entity}
    (he : expression.Meets c) : (evalVariableDeclaration host name type expression).Meets c := by
  refine .bind (checkUndeclared_meets name) fun _ => .bind (.gets _) fun type => ?_
  cases type with
  | none => exact .throw _
  | some type =>
    exact .bind he fun _ => .bind (constructCopy_meets hc.admits host type _) fun _ =>
      performStatement_meets hc trivial

theorem evalAssignment_meets (path : IdentifierPath) {expression : Eval Entity}
    (he : expression.Meets c) : (evalAssignment path expression).Meets c := by
  refine .bind (evalIdentifierPath_meets hc.admits path) fun _ => .bind (.gets _) fun _ =>
    .bind he fun _ => .bind ?_ fun _ => .pure _
  exact .bind (.gets _) fun _ => .bind (performStatement_meets hc trivial) fun _ => .pure _

theorem evalDelay_meets {expression : Eval Entity} (he : expression.Meets c) :
    (evalDelay expression).Meets c := by
  refine .bind he fun _ => .bind (expectDuration_meets _) fun _ => .bind (.gets _) fun wake =>
    .bind (performStatement_meets hc trivial) fun _ => ?_
  split
  · exact .abandon _
  · exact .pure _

omit hc in
theorem raised_meets (value : Entity) : (raised value).Meets c := by
  unfold raised
  split
  next => exact .bind (.gets _) fun _ => .pure _
  next => exact .pure _
  next => exact .throw _

theorem evalWorkflowDefinition_meets (w : WorkflowDefinition) :
    (evalWorkflowDefinition w).Meets c :=
  .bind (checkUndeclared_meets _) fun _ => performStatement_meets hc trivial

/-! ## The parts of an invocation -/

omit hc in
theorem Instanciation.error_meets {α : Type} (i : Instanciation) (what : String) :
    (i.error what : Eval α).Meets c := by
  cases i <;> exact .throw _

theorem bindArguments_meets (invocation : WorkflowInvocation) (first : Option Declaration)
    (index : Nat) (inputs : List Declaration) :
    (bindArguments invocation first index inputs).Meets c := by
  induction inputs generalizing index with
  | nil => exact .pure _
  | cons input inputs ih =>
    unfold bindArguments
    split
    · exact .throw _
    · refine .bind (.gets _) fun type => ?_
      cases type with
      | none => exact Instanciation.error_meets _ _
      | some type =>
        exact .ite (Instanciation.error_meets _ _)
          (.bind (performStatement_meets hc trivial) fun _ => ih _)

theorem evalArguments_meets (invocation : WorkflowInvocation) :
    (evalArguments invocation).Meets c := by
  unfold evalArguments
  split
  · exact .pure _
  · exact .ite (Instanciation.error_meets _ _) (bindArguments_meets hc _ _ _ _)

omit hc in
theorem checkReturnValue_meets (i : Instanciation) (type : FlowType) (value : Option Entity) :
    (checkReturnValue i type value).Meets c :=
  .ite (Instanciation.error_meets _ _) (.ite (.throw _) (.pure _))

/-- Every simple statement that does not return meets a contract that allows what they do. -/
theorem evalSimple_meets_of_not_returns (host : Host) {invoke : WorkflowInvocation → Eval Entity}
    (hi : ∀ invocation, (awaitWorkflow invoke invocation).Meets c) {statement : WorkflowStatement}
    (hr : ¬ statement.returns) : (evalSimple host invoke statement).Meets c := by
  have expression := evalExpression_meets hc.admits host hi
  cases statement with
  | importStatement path => exact .pure _
  | variableDeclaration name type e =>
    refine evalVariableDeclaration_meets hc host name type ?_
    cases e with
    | none => exact .pure _
    | some e => exact expression e
  | assignment path e => exact evalAssignment_meets hc path (expression e)
  | delay e => exact evalDelay_meets hc (expression e)
  | returnStatement e | raise e => exact absurd rfl hr
  | breakStatement => exact performStatement_meets hc trivial
  | expression e => exact .bind (expression e) fun _ => .pure _
  | ifBlock block | repeatBlock block => exact .throw _
  | workflowDefinition w => exact evalWorkflowDefinition_meets hc w

end Simple

section Statements

set_option linter.unusedSectionVars false

variable {c : Contract State Action} (hc : AdmitsStatements c)
include hc

theorem setReturnValue_meets (value : Entity) (origin : Origin) :
    (setReturnValue value origin).Meets c :=
  fun s => hc.returnValue s value origin

theorem recordStatement_meets (statement : WorkflowStatement) :
    (recordStatement statement).Meets c :=
  fun s => hc.execute s statement

theorem evalSimple_meets (host : Host) {invoke : WorkflowInvocation → Eval Entity}
    (hi : ∀ invocation, (awaitWorkflow invoke invocation).Meets c) (statement : WorkflowStatement) :
    (evalSimple host invoke statement).Meets c := by
  have expression := evalExpression_meets hc.admits host hi
  by_cases hr : statement.returns
  · cases statement with
    | returnStatement e => exact .bind (expression e) fun _ => setReturnValue_meets hc _ _
    | raise e =>
      exact .bind (expression e) fun _ => .bind (raised_meets _) fun _ =>
        setReturnValue_meets hc _ _
    | _ => cases hr
  · exact evalSimple_meets_of_not_returns hc.simple host hi hr

omit hc in
theorem ifStay_meets {m : Eval Unit} (hm : m.Meets c) : (ifStay m).Meets c :=
  .bind (.gets _) fun _ => .ite hm (.pure _)

theorem evalCondition_meets {condition : Eval Bool} {statements : Eval Unit}
    (hb : condition.Meets c) (hs : statements.Meets c) :
    (evalCondition condition statements).Meets c :=
  .bind hb fun _ => .ite (.bind (hc.scope .local hs) fun _ => .pure _) (.pure _)

theorem evalRepeat_meets {statements : Eval Unit} (hs : statements.Meets c) (count : Nat) :
    (evalRepeat statements count).Meets c := by
  induction count with
  | zero => exact .pure _
  | succ count ih => exact .bind (hc.scope .loop hs) fun _ => ifStay_meets ih

theorem evalFunction_meets {evalBody : List WorkflowStatement → Eval Unit}
    (hb : ∀ statements, (evalBody statements).Meets c) (invocation : WorkflowInvocation)
    (type : FlowType) : (evalFunction evalBody invocation type).Meets c :=
  .bind (.gets _) fun _ =>
    .bind (.bind (evalArguments_meets hc.simple _) fun _ => hc.scope .local (hb _)) fun _ =>
    .bind (.gets _) fun _ => checkReturnValue_meets _ _ _

/-! ## Control statements -/

variable (host : Host) {leaves : Leaves} (hb : ∀ e, (leaves.condition e).Meets c)
  (hl : ∀ statement, (leaves.simple statement).Meets c)
include hb hl

mutual

/-- **Every statement meets a contract that allows what simple statements do and is kept by the
guard of a scope.** -/
theorem evalStatement_meets : ∀ statement, (evalStatement host leaves statement).Meets c
  | .ifBlock ⟨⟨condition, statements⟩, elifBlocks, elseBlock⟩ => by
    rw [evalStatement]
    refine .bind (recordStatement_meets hc _) fun _ =>
      .bind (evalCondition_meets hc (hb _) (evalStatements_meets statements)) fun _ =>
      ifStay_meets (.ite (.pure _) (evalElifBlocks_meets elifBlocks (.ite (.pure _) ?_)))
    exact hc.scope .local (evalStatements_meets elseBlock)
  | .repeatBlock ⟨statements⟩ => by
    rw [evalStatement]
    exact .bind (recordStatement_meets hc _) fun _ =>
      evalRepeat_meets hc (evalStatements_meets statements) _
  | .importStatement _ | .variableDeclaration _ _ _ | .assignment _ _ | .delay _
  | .returnStatement _ | .raise _ | .breakStatement | .expression _ | .workflowDefinition _ => by
    rw [evalStatement]
    · exact .bind (recordStatement_meets hc _) fun _ => hl _
    all_goals simp

theorem evalStatements_meets : ∀ statements, (evalStatements host leaves statements).Meets c
  | [] => by rw [evalStatements]; exact .pure _
  | statement :: statements => by
    rw [evalStatements]
    exact .bind (evalStatement_meets statement) fun _ => ifStay_meets (evalStatements_meets statements)

theorem evalElifBlocks_meets : ∀ (blocks : List (ConditionBlock WorkflowStatement))
    {otherwise : Eval Unit}, otherwise.Meets c → (evalElifBlocks host leaves blocks otherwise).Meets c
  | [], _, ho => by rw [evalElifBlocks]; exact ho
  | ⟨condition, statements⟩ :: blocks, _, ho => by
    rw [evalElifBlocks]
    exact .bind (evalCondition_meets hc (hb _) (evalStatements_meets statements)) fun _ =>
      .ite (.pure _) (ifStay_meets (evalElifBlocks_meets blocks ho))

end

omit hb hl in
theorem evalLeaves_meet {invoke : WorkflowInvocation → Eval Entity}
    (hi : ∀ invocation, (awaitWorkflow invoke invocation).Meets c) :
    (∀ e, ((evalLeaves host invoke).condition e).Meets c) ∧
      ∀ statement, ((evalLeaves host invoke).simple statement).Meets c :=
  ⟨evalBoolean_meets hc.admits host hi, evalSimple_meets hc host hi⟩

end Statements

/-! ## Policies and scopes -/

section Stay

variable {m next : Eval Unit} {s : State}

theorem run_ifStay_of_stay (h : s.current.policy = .stay) : ifStay next s = next s := by
  simp only [ifStay, Eval.gets, Coroutine.gets, Coroutine.run_bind, Coroutine.sequel, h, if_true]
  rfl

theorem run_ifStay_of_ne (h : s.current.policy ≠ .stay) : ifStay next s = ⟨.ok (), []⟩ := by
  simp only [ifStay, Eval.gets, Coroutine.gets, Coroutine.run_bind, Coroutine.sequel, h, if_false]
  rfl

/-- A statement after which the policy is not `Stay` is the last one. -/
theorem run_bind_ifStay_of_ne (he : (m s).exit = .ok ())
    (hp : (m.after s).current.policy ≠ .stay) : (m >>= fun _ => ifStay next) s = m s := by
  rw [Coroutine.bind_ok he, run_ifStay_of_ne hp, List.append_nil, ← he]

theorem run_bind_ifStay_of_stay (he : (m s).exit = .ok ())
    (hp : (m.after s).current.policy = .stay) :
    (m >>= fun _ => ifStay next) s =
      ⟨(next (m.after s)).exit, (m s).log ++ (next (m.after s)).log⟩ := by
  rw [Coroutine.bind_ok he, run_ifStay_of_stay hp]

end Stay

theorem run_evalScope (type : ScopeType) (m : Eval Unit) (s : State) :
    evalScope type m s = ⟨(m (s.push type)).exit, .push type :: ((m (s.push type)).log ++ [.pop])⟩ :=
  rfl

theorem after_evalScope (type : ScopeType) (m : Eval Unit) (s : State) :
    (evalScope type m).after s = (m.after (s.push type)).pop := by
  simp only [Coroutine.after, run_evalScope, List.foldl_cons, List.foldl_append, List.foldl_nil]
  rfl

/-- An expression that is a primary expression is evaluated as this one. -/
theorem evalExpression_primary (host : Host) (invoke : WorkflowInvocation → Eval Entity)
    (e : PrimaryExpression) : evalExpression host invoke e.toExpression = evalPrimary host invoke e := by
  simp only [PrimaryExpression.toExpression, evalExpression, evalLogical, evalLogicalTerms,
    evalEquality, evalEqualityTerms, evalRelational, evalRelationalTerms, evalAdditive,
    evalAdditiveTerms, evalMultiplicative, evalMultiplicativeTerms, evalUnary, Coroutine.bind_pure]

section Condition

variable {condition : Eval Bool} {statements : Eval Unit} {rest : Bool → Eval Unit} {s : State}

/-- Where the condition holds, nothing follows the statements. -/
theorem run_condition_holds (hc : (condition s).exit = .ok true)
    (hr : ∀ t, rest true t = ⟨.ok (), []⟩) : (evalCondition condition statements >>= rest) s =
      ⟨(evalScope .local statements (condition.after s)).exit,
        (condition s).log ++ (evalScope .local statements (condition.after s)).log⟩ := by
  rw [evalCondition, Coroutine.bind_assoc, Coroutine.bind_ok hc, if_pos rfl, Coroutine.bind_assoc]
  cases he : (evalScope .local statements (condition.after s)).exit with
  | ok a => rw [Coroutine.bind_ok he, Coroutine.pure_bind, hr, List.append_nil]
  | throw e => rw [Coroutine.bind_throw he]
  | cut n => rw [Coroutine.bind_cut he]

theorem run_condition_fails (hc : (condition s).exit = .ok false) :
    (evalCondition condition statements >>= rest) s =
      ⟨(rest false (condition.after s)).exit,
        (condition s).log ++ (rest false (condition.after s)).log⟩ := by
  rw [evalCondition, Coroutine.bind_assoc, Coroutine.bind_ok hc, if_neg Bool.false_ne_true,
    Coroutine.pure_bind]

end Condition

/-- A statement without statements in it is evaluated by its own evaluator. -/
theorem run_evalStatement (host : Host) (leaves : Leaves) {statement : WorkflowStatement}
    (hi : ∀ block, statement ≠ .ifBlock block) (hr : ∀ block, statement ≠ .repeatBlock block)
    (s : State) : evalStatement host leaves statement s =
      ⟨(leaves.simple statement s).exit,
        .execute s.current.returnValue statement :: (leaves.simple statement s).log⟩ := by
  cases statement with
  | ifBlock block => exact absurd rfl (hi block)
  | repeatBlock block => exact absurd rfl (hr block)
  | _ =>
    rw [evalStatement]
    · rfl
    all_goals simp

/-- The return type is read off the state. -/
theorem returnType_cases (w : WorkflowDefinition) (s : State) :
    (∃ type, returnType w s = ⟨.ok type, []⟩) ∨ ∃ e, returnType w s = ⟨.throw e, []⟩ := by
  cases hr : w.signature.bind Signature.returnType with
  | none => exact .inl ⟨_, by rw [returnType, hr]; rfl⟩
  | some name =>
    cases hf : s.findType name with
    | some type =>
      exact .inl ⟨type, by simp [returnType, hr, Eval.gets, Coroutine.gets, Coroutine.run_bind,
        Coroutine.sequel, hf, Coroutine.run_pure]⟩
    | none =>
      exact .inr ⟨_, by simp [returnType, hr, Eval.gets, Coroutine.gets, Coroutine.run_bind,
        Coroutine.sequel, hf, Eval.throw, Coroutine.throw]; rfl⟩

/-- What an invocation makes of a run in its scope. -/
def closeFunction (r : Run Action Exception Entity) : Run Action Exception Entity where
  exit := r.exit
  log := .push .function :: (r.log ++ match r.exit with
    | .ok _ => [.pop]
    | _ => [])

/-- An invocation does nothing, for want of a return type, or what it does in its scope. -/
theorem evalInvocation_cases (evalBody : List WorkflowStatement → Eval Unit)
    (invocation : WorkflowInvocation) (s : State) :
    (∃ e, returnType invocation.definition s = ⟨.throw e, []⟩ ∧
      evalInvocation evalBody invocation s = ⟨.throw e, []⟩) ∨ ∃ type,
      returnType invocation.definition s = ⟨.ok type, []⟩ ∧
      evalInvocation evalBody invocation s =
        closeFunction (evalFunction evalBody invocation type (s.push .function)) := by
  rcases returnType_cases invocation.definition s with ⟨type, ht⟩ | ⟨e, ht⟩
  · refine .inr ⟨type, ht, ?_⟩
    rw [evalInvocation, Coroutine.bind_ok (by rw [ht]), Coroutine.after, ht]
    simp only [List.foldl_nil, List.nil_append]
    rw [Coroutine.bind_ok (rfl : (Eval.perform (.push .function) s).exit = .ok ())]
    have inside : (Eval.perform (.push .function)).after s = s.push .function := rfl
    rw [inside, closeFunction]
    cases hr : (evalFunction evalBody invocation type (s.push .function)).exit with
    | ok result => rw [Coroutine.bind_ok hr]; rfl
    | throw e => rw [Coroutine.bind_throw hr]; simp; rfl
    | cut n => rw [Coroutine.bind_cut hr]; simp; rfl
  · exact .inl ⟨e, ht, by rw [evalInvocation, Coroutine.bind_throw (by rw [ht]), ht]⟩

end EzCpp.Flow
