import EzCpp.Flow.Copy
import EzCpp.Flow.Provenance

/-!
# What an interpreter can reach

Every handle that an interpreter holds, in a variable, in a return value or inside of another value,
is to storage that one of its own allocations has made, as storage of the kind the handle takes it
for, or to one of the default values. This holds at every moment of every run (`sound_of_run`): each
part of the interpreter that is given such handles gives such handles.
-/

namespace EzCpp.Flow

open EzCpp.Lib Ast

/-! ## Parts of expressions -/

section Parts

variable {schedule : List Wake} {h : List Action}

theorem evalLiteral_yields (l : Literal) : Yields schedule h (evalLiteral l) Entity.Known := by
  cases l with
  | boolean b => exact new_yields .boolean allKnown_nil (fun _ => rfl) fun _ => rfl
  | integer i => exact new_yields .integer allKnown_nil (fun _ => rfl) fun _ => rfl
  | real r => exact new_yields .real allKnown_nil (fun _ => rfl) fun _ => rfl
  | string t => exact new_yields .string allKnown_nil (fun _ => rfl) fun _ => rfl
  | duration d => exact new_yields .duration allKnown_nil (fun _ => rfl) fun _ => rfl

theorem evalProperties_yields {e : Entity} (he : e.Known h) (names : List Identifier) :
    Yields schedule h (evalProperties e names) Entity.Known := by
  induction names generalizing e h with
  | nil => exact .pure he
  | cons name names ih =>
    exact .bind (getProperty_yields he name) fun _ _ _ hr => .bind (ensureValue_yields hr)
      fun _ _ _ hx => ih hx

/-- The variables in scope are known. -/
theorem findEntity_known {s : State} (hs : s.Stored h) {name : String} {e : Entity}
    (he : s.findEntity name = some e) : e.Known h := by
  obtain ⟨scope, hscope, he⟩ := List.exists_of_findSome?_eq_some he
  obtain ⟨l, l', hl, -⟩ := List.lookup_eq_some_iff.mp he
  exact hs.scopes scope hscope e (List.mem_map.mpr ⟨(name, e), by rw [hl]; simp, rfl⟩)

theorem evalIdentifierPath_yields (path : IdentifierPath) :
    Yields schedule h (evalIdentifierPath path) Entity.Known := by
  have found : Yields schedule h (Eval.gets fun s => s.findEntity path.front)
      fun h e => ∀ x, e = some x → x.Known h := .gets fun hs x hx => findEntity_known hs hx
  refine .bind found fun _ e _ he => ?_
  cases e with
  | none => exact .throw _
  | some e => exact evalProperties_yields (he e rfl) _

theorem evalUnaryOp_yields (op : UnaryOperator) {value : Entity} (hv : value.Known h) :
    Yields schedule h (evalUnaryOp op value) Entity.Known :=
  value_yields (unaryOp_yields op hv)

theorem evalBinaryOp_yields (op : BinaryOp) (lhs rhs : Entity) :
    Yields schedule h (evalBinaryOp op lhs rhs) Entity.Known :=
  value_yields (binaryOp_yields op lhs rhs)

theorem evalEqualityOp_yields (op : EqualityOperator) (lhs rhs : Entity) :
    Yields schedule h (evalEqualityOp op lhs rhs) Entity.Known := by
  cases op with
  | is => exact .throw _
  | eq | notEq | contained => exact evalBinaryOp_yields _ _ _

theorem evalIs_yields (lhs : Entity) (term : RelationalExpression) :
    Yields schedule h (evalIs lhs term) Entity.Known := by
  refine .bind (gets_yields _) fun _ type _ _ => ?_
  cases type with
  | none => exact .throw _
  | some type => exact new_yields .boolean allKnown_nil (fun _ => rfl) fun _ => rfl

theorem expectDuration_yields (value : Entity) :
    Yields schedule h (expectDuration value) fun _ _ => True := by
  unfold expectDuration
  split
  · exact .pure trivial
  · exact .throw _

theorem evalTimeout_yields {value : Entity} (hv : value.Known h) :
    Yields schedule h (evalTimeout value) Entity.Known := by
  refine .bind (expectDuration_yields value) fun _ _ hk _ => .bind (gets_yields _) fun _ _ hk' _ =>
    .ite (fun _ => ?_) fun _ => .pure ((hv.mono hk).mono hk')
  exact new_yields .duration allKnown_nil (fun _ => rfl) fun _ => rfl

theorem awaitRequest_yields (kind reply : DictionaryKind) (a : Nat) :
    Yields schedule h (awaitRequest kind reply a) Entity.Known := by
  refine .bind (requestToJson_yields a) fun _ _ _ _ => .bind (perform_yields trivial) fun _ _ _ _ =>
    .bind (gets_yields _) fun _ wake _ _ => .bind (perform_yields trivial) fun _ _ _ _ => ?_
  split
  next =>
    exact .bind (fromJsonObject_yields mapKnown_empty _) fun _ _ _ hm =>
      new_yields .dictionary hm (fun _ => rfl) fun _ => rfl
  next => exact .throw _
  next => exact .abandon _
  next => exact .pure (known_error _)

theorem setReturnValue_yields {value : Entity} (hv : value.Known h) (origin : Origin) :
    Yields schedule h (setReturnValue value origin) fun _ _ => True :=
  .bind (gets_yields _) fun _ _ hk _ => perform_yields (hv.mono hk)

theorem evalTry_yields {value : Entity} (hv : value.Known h) :
    Yields schedule h (evalTry value) Entity.Known := by
  unfold evalTry
  split
  next what => exact .bind (setReturnValue_yields (known_error what) _) fun _ _ _ _ => .pure (known_error "")
  next => exact .pure hv

theorem evalCallable_yields (host : Host) (call : FunctionCall) (callable : Entity)
    {arguments : Eval CallArguments} (ha : ∀ k, h <+: k → Yields schedule k arguments ArgumentsKnown) :
    Yields schedule h (evalCallable host call callable arguments) Entity.Known := by
  unfold evalCallable
  split
  next =>
    exact .bind (ha h (List.prefix_refl h)) fun _ _ _ _ => value_yields (callFreeFunction_yields host _ _)
  next =>
    refine .bind (ha h (List.prefix_refl h)) fun _ args _ hargs => .pure (.mk (fun st hst => ?_) hargs)
    cases hst
  next =>
    split
    · exact .throw _
    · exact .bind (evalIdentifierPath_yields _) fun _ _ hk hs => .bind (ha _ hk) fun _ _ hk' hargs =>
        value_yields (callMemFunction_yields (hs.mono hk') _ hargs)
  next => exact .throw _

theorem recordStatement_yields (statement : WorkflowStatement) :
    Yields schedule h (recordStatement statement) fun _ _ => True :=
  .bind (gets_yields _) fun _ _ _ _ => perform_yields trivial

theorem checkUndeclared_yields (name : String) :
    Yields schedule h (checkUndeclared name) fun _ _ => True :=
  .bind (gets_yields _) fun _ _ _ _ => .ite (fun _ => .throw _) fun _ => .pure trivial

theorem raised_yields {value : Entity} (hv : value.Known h) :
    Yields schedule h (raised value) Entity.Known := by
  unfold raised
  split
  next => exact .bind (gets_yields _) fun _ _ _ _ => .pure (known_error _)
  next => exact .pure hv
  next => exact .throw _

theorem convertCondition_yields (condition : Entity) :
    Yields schedule h (convertCondition condition) fun _ _ => True := by
  unfold convertCondition
  split
  next => exact .pure trivial
  next =>
    cases convert _ _ with
    | ok value => exact .pure trivial
    | error what => exact .throw _

end Parts

/-! ## Expressions -/

section Expressions

set_option linter.unusedSectionVars false

variable {schedule : List Wake} (host : Host) {invoke : WorkflowInvocation → Eval Entity}
  (hi : ∀ h invocation, ArgumentsKnown h invocation.arguments →
    Yields schedule h (invoke invocation) Entity.Known)
include hi

theorem awaitWorkflow_yields {h : List Action} {invocation : WorkflowInvocation}
    (ha : ArgumentsKnown h invocation.arguments) :
    Yields schedule h (awaitWorkflow invoke invocation) Entity.Known :=
  .onAbandoned (hi h invocation ha) fun _ _ =>
    .bind (perform_yields trivial) fun _ _ _ _ => .pure (known_error _)

theorem evalAwait_yields {h : List Action} {awaitable : Entity} (ha : awaitable.Known h)
    (e : Expression) {duration : Eval Entity} (hd : Yields schedule h duration Entity.Known) :
    Yields schedule h (evalAwait invoke awaitable e duration) Entity.Known := by
  have timed : ∀ {m : Eval Entity}, (∀ k, h <+: k → Yields schedule k m Entity.Known) →
      Yields schedule h (duration >>= fun value => evalTimeout value >>= fun _ => m) Entity.Known :=
    fun hm => .bind hd fun _ _ hk hv => .bind (evalTimeout_yields hv) fun _ _ hk' _ =>
      hm _ (hk.trans hk')
  unfold evalAwait
  split
  next => exact timed fun _ hk => awaitWorkflow_yields hi (AllKnown.mono ha.arguments hk)
  next => exact timed fun _ _ => awaitWorkflow_yields hi allKnown_nil
  next =>
    split
    · exact timed fun _ _ => awaitRequest_yields _ _ _
    · exact .throw _
  next => exact .throw _

mutual

theorem evalPrimary_yields {h : List Action} : ∀ e,
    Yields schedule h (evalPrimary host invoke e) Entity.Known
  | .identifierPath path => by
    rw [evalPrimary]
    exact evalIdentifierPath_yields path
  | .literal l => by
    rw [evalPrimary]
    exact evalLiteral_yields l
  | .functionCall ⟨path, arguments⟩ => by
    rw [evalPrimary]
    exact .bind (evalIdentifierPath_yields path) fun _ _ _ _ =>
      evalCallable_yields host _ _ fun _ _ => evalCallArguments_yields arguments
  | .array elements => by
    rw [evalPrimary]
    exact .bind (evalElements_yields elements) fun _ _ _ hes =>
      new_yields .array hes (fun _ => rfl) fun _ => rfl
  | .dictionary elements => by
    rw [evalPrimary]
    exact .bind (evalAssignments_yields mapKnown_empty elements) fun _ _ _ hm =>
      new_yields .dictionary hm (fun _ => rfl) fun _ => rfl
  | .expression e => by
    rw [evalPrimary]
    exact evalExpression_yields e
  | .awaitExpression ⟨expression, duration⟩ => by
    rw [evalPrimary]
    exact .bind (evalExpression_yields expression) fun _ _ _ ha =>
      evalAwait_yields hi ha _ (evalExpression_yields duration)
  | .tryExpression e => by
    rw [evalPrimary]
    exact .bind (evalExpression_yields e) fun _ _ _ hv => evalTry_yields hv

theorem evalCallArguments_yields {h : List Action} : ∀ args,
    Yields schedule h (evalCallArguments host invoke args) ArgumentsKnown
  | [] => by
    rw [evalCallArguments]
    exact .pure allKnown_nil
  | ⟨_, value⟩ :: args => by
    rw [evalCallArguments]
    exact .bind (evalExpression_yields value) fun _ _ _ hv => .bind (evalCallArguments_yields args)
      fun _ _ hk hvs => .pure (List.forall_mem_cons.mpr ⟨hv.mono hk, hvs⟩)

theorem evalElements_yields {h : List Action} : ∀ es,
    Yields schedule h (evalElements host invoke es) AllKnown
  | [] => by
    rw [evalElements]
    exact .pure allKnown_nil
  | e :: es => by
    rw [evalElements]
    exact .bind (evalExpression_yields e) fun _ _ _ hv => .bind (evalElements_yields es)
      fun _ _ hk hvs => .pure (List.forall_mem_cons.mpr ⟨hv.mono hk, hvs⟩)

theorem evalAssignments_yields {h : List Action} {entries : SortedMap String Entity}
    (hm : MapKnown h entries) : ∀ elements,
    Yields schedule h (evalAssignments host invoke entries elements) MapKnown
  | [] => by
    rw [evalAssignments]
    exact .pure hm
  | ⟨_, value⟩ :: elements => by
    rw [evalAssignments]
    exact .bind (evalExpression_yields value) fun _ _ hk hv =>
      evalAssignments_yields (mapKnown_insert (AllKnown.mono hm hk) hv) elements

theorem evalUnary_yields {h : List Action} : ∀ e,
    Yields schedule h (evalUnary host invoke e) Entity.Known
  | .mk op e => by
    rw [evalUnary]
    refine .bind (evalPrimary_yields e) fun _ value _ hv => ?_
    cases op with
    | none => exact .pure hv
    | some op => exact evalUnaryOp_yields op hv

theorem evalMultiplicative_yields {h : List Action} : ∀ e,
    Yields schedule h (evalMultiplicative host invoke e) Entity.Known
  | ⟨first, terms⟩ => by
    rw [evalMultiplicative]
    exact .bind (evalUnary_yields first) fun _ _ _ hv => evalMultiplicativeTerms_yields hv terms

theorem evalMultiplicativeTerms_yields {h : List Action} {lhs : Entity} (hl : lhs.Known h) : ∀ terms,
    Yields schedule h (evalMultiplicativeTerms host invoke lhs terms) Entity.Known
  | [] => by
    rw [evalMultiplicativeTerms]
    exact .pure hl
  | ⟨_, term⟩ :: terms => by
    rw [evalMultiplicativeTerms]
    exact .bind (evalUnary_yields term) fun _ _ _ _ => .bind (evalBinaryOp_yields _ _ _)
      fun _ _ _ hv => evalMultiplicativeTerms_yields hv terms

theorem evalAdditive_yields {h : List Action} : ∀ e,
    Yields schedule h (evalAdditive host invoke e) Entity.Known
  | ⟨first, terms⟩ => by
    rw [evalAdditive]
    exact .bind (evalMultiplicative_yields first) fun _ _ _ hv => evalAdditiveTerms_yields hv terms

theorem evalAdditiveTerms_yields {h : List Action} {lhs : Entity} (hl : lhs.Known h) : ∀ terms,
    Yields schedule h (evalAdditiveTerms host invoke lhs terms) Entity.Known
  | [] => by
    rw [evalAdditiveTerms]
    exact .pure hl
  | ⟨_, term⟩ :: terms => by
    rw [evalAdditiveTerms]
    exact .bind (evalMultiplicative_yields term) fun _ _ _ _ => .bind (evalBinaryOp_yields _ _ _)
      fun _ _ _ hv => evalAdditiveTerms_yields hv terms

theorem evalRelational_yields {h : List Action} : ∀ e,
    Yields schedule h (evalRelational host invoke e) Entity.Known
  | ⟨first, terms⟩ => by
    rw [evalRelational]
    exact .bind (evalAdditive_yields first) fun _ _ _ hv => evalRelationalTerms_yields hv terms

theorem evalRelationalTerms_yields {h : List Action} {lhs : Entity} (hl : lhs.Known h) : ∀ terms,
    Yields schedule h (evalRelationalTerms host invoke lhs terms) Entity.Known
  | [] => by
    rw [evalRelationalTerms]
    exact .pure hl
  | ⟨_, term⟩ :: terms => by
    rw [evalRelationalTerms]
    exact .bind (evalAdditive_yields term) fun _ _ _ _ => .bind (evalBinaryOp_yields _ _ _)
      fun _ _ _ hv => evalRelationalTerms_yields hv terms

theorem evalEquality_yields {h : List Action} : ∀ e,
    Yields schedule h (evalEquality host invoke e) Entity.Known
  | ⟨first, terms⟩ => by
    rw [evalEquality]
    exact .bind (evalRelational_yields first) fun _ _ _ hv => evalEqualityTerms_yields hv terms

theorem evalEqualityTerms_yields {h : List Action} {lhs : Entity} (hl : lhs.Known h) : ∀ terms,
    Yields schedule h (evalEqualityTerms host invoke lhs terms) Entity.Known
  | [] => by
    rw [evalEqualityTerms]
    exact .pure hl
  | ⟨op, term⟩ :: terms => by
    rw [evalEqualityTerms]
    refine .ite (fun _ => ?_) fun _ => ?_
    · exact .bind (evalIs_yields _ _) fun _ _ _ hv => evalEqualityTerms_yields hv terms
    · exact .bind (evalRelational_yields term) fun _ _ _ _ => .bind (evalEqualityOp_yields _ _ _)
        fun _ _ _ hv => evalEqualityTerms_yields hv terms

theorem evalLogical_yields {h : List Action} : ∀ e,
    Yields schedule h (evalLogical host invoke e) Entity.Known
  | ⟨first, terms⟩ => by
    rw [evalLogical]
    exact .bind (evalEquality_yields first) fun _ _ _ hv => evalLogicalTerms_yields hv terms

theorem evalLogicalTerms_yields {h : List Action} {lhs : Entity} (hl : lhs.Known h) : ∀ terms,
    Yields schedule h (evalLogicalTerms host invoke lhs terms) Entity.Known
  | [] => by
    rw [evalLogicalTerms]
    exact .pure hl
  | ⟨_, term⟩ :: terms => by
    rw [evalLogicalTerms]
    exact .bind (evalEquality_yields term) fun _ _ _ _ => .bind (evalBinaryOp_yields _ _ _)
      fun _ _ _ hv => evalLogicalTerms_yields hv terms

/-- **Every expression has a value that is known.** -/
theorem evalExpression_yields {h : List Action} : ∀ e,
    Yields schedule h (evalExpression host invoke e) Entity.Known
  | .mk logical => by
    rw [evalExpression]
    exact evalLogical_yields logical

end

/-! ## Simple statements -/

theorem evalVariableDeclaration_yields {h : List Action} (name type : String) {expression : Eval Entity}
    (he : ∀ k, Yields schedule k expression Entity.Known) :
    Yields schedule h (evalVariableDeclaration host name type expression) fun _ _ => True := by
  refine .bind (checkUndeclared_yields name) fun _ _ _ _ => .bind (gets_yields _) fun _ type _ _ => ?_
  cases type with
  | none => exact .throw _
  | some type =>
    exact .bind (he _) fun _ _ _ hv => .bind (constructCopy_yields host type hv) fun _ _ _ hc =>
      perform_yields hc

theorem evalSimple_yields {h : List Action} (statement : WorkflowStatement) :
    Yields schedule h (evalSimple host invoke statement) fun _ _ => True := by
  have expression : ∀ {h} e, Yields schedule h (evalExpression host invoke e) Entity.Known :=
    fun e => evalExpression_yields host hi e
  cases statement with
  | importStatement path => exact .pure trivial
  | variableDeclaration name type e =>
    refine evalVariableDeclaration_yields host hi name type fun k => ?_
    cases e with
    | none => exact .pure (known_of_plain rfl rfl)
    | some e => exact expression e
  | assignment path e =>
    exact .bind (evalIdentifierPath_yields path) fun _ _ _ hl => .bind (gets_yields _) fun _ _ hk _ =>
      .bind (expression e) fun _ _ hk' hr =>
      .bind (assign_yields _ (hl.mono (hk.trans hk')) hr) fun _ _ _ _ => .pure trivial
  | delay e =>
    refine .bind (expression e) fun _ _ _ _ => .bind (expectDuration_yields _) fun _ _ _ _ =>
      .bind (gets_yields _) fun _ _ _ _ => .bind (perform_yields trivial) fun _ _ _ _ => ?_
    split
    · exact .abandon _
    · exact .pure trivial
  | returnStatement e => exact .bind (expression e) fun _ _ _ hv => setReturnValue_yields hv _
  | raise e =>
    exact .bind (expression e) fun _ _ _ hv => .bind (raised_yields hv) fun _ _ _ hv =>
      setReturnValue_yields hv _
  | breakStatement => exact perform_yields trivial
  | expression e => exact .bind (expression e) fun _ _ _ _ => .pure trivial
  | ifBlock block | repeatBlock block => exact .throw _
  | workflowDefinition w =>
    exact .bind (checkUndeclared_yields _) fun _ _ _ _ => perform_yields (known_of_plain rfl rfl)

theorem evalBoolean_yields {h : List Action} (e : Expression) :
    Yields schedule h (evalBoolean host invoke e) fun _ _ => True := by
  refine .bind (evalExpression_yields host hi e) fun _ _ _ hv => .bind (convertCondition_yields _)
    fun _ _ _ _ => ?_
  split
  · exact gets_yields _
  · exact .throw _

end Expressions

/-! ## Control statements -/

section Statements

set_option linter.unusedSectionVars false

variable {schedule : List Wake} {h : List Action}

theorem ifStay_yields {m : Eval Unit} (hm : ∀ k, Yields schedule k m fun _ _ => True) :
    Yields schedule h (ifStay m) fun _ _ => True :=
  .bind (gets_yields _) fun _ _ _ _ => .ite (fun _ => hm _) fun _ => .pure trivial

theorem evalScope_yields (type : ScopeType) {m : Eval Unit}
    (hm : ∀ k, Yields schedule k m fun _ _ => True) :
    Yields schedule h (evalScope type m) fun _ _ => True :=
  .bind (perform_yields trivial) fun _ _ _ _ =>
    .onExit (hm _) (fun _ _ hs => by rw [List.foldl_append]; exact hs.apply trivial) fun _ _ _ => trivial

theorem evalCondition_yields {condition : Eval Bool} {statements : Eval Unit}
    (hb : ∀ k, Yields schedule k condition fun _ _ => True)
    (hs : ∀ k, Yields schedule k statements fun _ _ => True) :
    Yields schedule h (evalCondition condition statements) fun _ _ => True :=
  .bind (hb _) fun _ _ _ _ => .ite (fun _ => .bind (evalScope_yields _ hs) fun _ _ _ _ => .pure trivial)
    fun _ => .pure trivial

theorem evalRepeat_yields {statements : Eval Unit}
    (hs : ∀ k, Yields schedule k statements fun _ _ => True) (count : Nat) :
    Yields schedule h (evalRepeat statements count) fun _ _ => True := by
  induction count generalizing h with
  | zero => exact .pure trivial
  | succ count ih => exact .bind (evalScope_yields _ hs) fun _ _ _ _ => ifStay_yields fun _ => ih

variable (host : Host) {leaves : Leaves}
  (hb : ∀ h e, Yields schedule h (leaves.condition e) fun _ _ => True)
  (hl : ∀ h statement, Yields schedule h (leaves.simple statement) fun _ _ => True)
include hb hl

mutual

theorem evalStatement_yields {h : List Action} : ∀ statement,
    Yields schedule h (evalStatement host leaves statement) fun _ _ => True
  | .ifBlock ⟨⟨condition, statements⟩, elifBlocks, elseBlock⟩ => by
    rw [evalStatement]
    refine .bind (recordStatement_yields _) fun _ _ _ _ =>
      .bind (evalCondition_yields (fun k => hb k _) fun _ => evalStatements_yields statements)
        fun _ _ _ _ => ifStay_yields fun _ => .ite (fun _ => .pure trivial) fun _ =>
          evalElifBlocks_yields elifBlocks fun _ => .ite (fun _ => .pure trivial) fun _ => ?_
    exact evalScope_yields .local fun _ => evalStatements_yields elseBlock
  | .repeatBlock ⟨statements⟩ => by
    rw [evalStatement]
    exact .bind (recordStatement_yields _) fun _ _ _ _ =>
      evalRepeat_yields (fun _ => evalStatements_yields statements) _
  | .importStatement _ | .variableDeclaration _ _ _ | .assignment _ _ | .delay _
  | .returnStatement _ | .raise _ | .breakStatement | .expression _ | .workflowDefinition _ => by
    rw [evalStatement]
    · exact .bind (recordStatement_yields _) fun _ _ _ _ => hl _ _
    all_goals simp

theorem evalStatements_yields {h : List Action} : ∀ statements,
    Yields schedule h (evalStatements host leaves statements) fun _ _ => True
  | [] => by
    rw [evalStatements]
    exact .pure trivial
  | statement :: statements => by
    rw [evalStatements]
    exact .bind (evalStatement_yields statement) fun _ _ _ _ =>
      ifStay_yields fun _ => evalStatements_yields statements

theorem evalElifBlocks_yields {h : List Action} : ∀ (blocks : List (ConditionBlock WorkflowStatement))
    {otherwise : Eval Unit}, (∀ k, Yields schedule k otherwise fun _ _ => True) →
    Yields schedule h (evalElifBlocks host leaves blocks otherwise) fun _ _ => True
  | [], _, ho => by
    rw [evalElifBlocks]
    exact ho _
  | ⟨condition, statements⟩ :: blocks, _, ho => by
    rw [evalElifBlocks]
    exact .bind (evalCondition_yields (fun k => hb k _) fun _ => evalStatements_yields statements)
      fun _ _ _ _ => .ite (fun _ => .pure trivial) fun _ =>
        ifStay_yields fun _ => evalElifBlocks_yields blocks ho

end

end Statements

/-! ## Workflow invocations and programs -/

section Programs

variable {schedule : List Wake} {h : List Action}

theorem returnType_yields (w : WorkflowDefinition) :
    Yields schedule h (returnType w) fun _ _ => True := by
  unfold returnType
  split
  · exact .pure trivial
  · refine .bind (gets_yields _) fun _ type _ _ => ?_
    cases type with
    | none => exact .throw _
    | some type => exact .pure trivial

theorem Instanciation.error_yields {α : Type} (i : Instanciation) (what : String)
    {Q : List Action → α → Prop} : Yields schedule h (i.error what : Eval α) Q := by
  cases i <;> exact .throw _

theorem argumentOf_known {args : CallArguments} (ha : ArgumentsKnown h args) {name : String}
    {index : Nat} {e : Entity} (he : argumentOf args name index = some e) : e.Known h := by
  have member : ∀ {arg : Option (Option String × Entity)}, arg.map Prod.snd = some e →
      (∀ x, arg = some x → x ∈ args) → e.Known h := by
    intro arg hx hm
    obtain ⟨x, rfl, rfl⟩ := Option.map_eq_some_iff.mp hx
    exact ha _ (List.mem_map_of_mem (hm x rfl))
  unfold argumentOf at he
  cases hf : args.find name with
  | some x =>
    rw [hf] at he
    cases he
    exact member hf fun x hx => List.mem_of_find?_eq_some hx
  | none =>
    rw [hf] at he
    exact member he fun x hx => List.mem_of_getElem? hx

theorem bindArguments_yields {invocation : WorkflowInvocation}
    (ha : ArgumentsKnown h invocation.arguments) (first : Option Declaration) (index : Nat)
    (inputs : List Declaration) :
    Yields schedule h (bindArguments invocation first index inputs) fun _ _ => True := by
  induction inputs generalizing h index with
  | nil => exact .pure trivial
  | cons input inputs ih =>
    unfold bindArguments
    split
    next => exact .throw _
    next argument harg =>
      refine .bind (gets_yields _) fun _ type hk _ => ?_
      cases type with
      | none => exact Instanciation.error_yields _ _
      | some type =>
        exact .ite (fun _ => Instanciation.error_yields _ _) fun _ =>
          .bind (perform_yields ((argumentOf_known ha harg).mono hk)) fun _ _ hk' _ =>
            ih (AllKnown.mono ha (hk.trans hk')) _

theorem evalArguments_yields {invocation : WorkflowInvocation}
    (ha : ArgumentsKnown h invocation.arguments) :
    Yields schedule h (evalArguments invocation) fun _ _ => True := by
  unfold evalArguments
  split
  · exact .pure trivial
  · exact .ite (fun _ => Instanciation.error_yields _ _) fun _ => bindArguments_yields ha _ _ _

theorem checkReturnValue_yields (i : Instanciation) (type : FlowType) {value : Option Entity}
    (hv : ∀ e, value = some e → e.Known h) :
    Yields schedule h (checkReturnValue i type value) Entity.Known := by
  refine .ite (fun _ => Instanciation.error_yields _ _) fun _ => .ite (fun _ => .throw _) fun _ =>
    .pure ?_
  cases value with
  | none => exact known_of_plain rfl rfl
  | some e => exact hv e rfl

theorem evalInvocation_yields {evalBody : List WorkflowStatement → Eval Unit}
    (hb : ∀ h statements, Yields schedule h (evalBody statements) fun _ _ => True)
    {invocation : WorkflowInvocation} (ha : ArgumentsKnown h invocation.arguments) :
    Yields schedule h (evalInvocation evalBody invocation) Entity.Known := by
  have body : ∀ {h}, ArgumentsKnown h invocation.arguments →
      Yields schedule h (evalFunctionBody evalBody invocation) fun _ _ => True := fun ha =>
    .bind (evalArguments_yields ha) fun _ _ _ _ => evalScope_yields _ fun k => hb k _
  have returned : ∀ {h} cell, Yields schedule h (Eval.gets fun s => s.returns cell)
      fun h value => ∀ e, value = some e → e.Known h :=
    fun cell => .gets fun hs e he => hs.returns cell e he
  refine .bind (returnType_yields _) fun _ _ hk _ => .bind (perform_yields trivial) fun _ _ hk' _ => ?_
  refine .bind (R := Entity.Known) ?_ fun _ _ _ hv => .bind (perform_yields trivial)
    fun _ _ hk _ => .pure (hv.mono hk)
  exact .bind (gets_yields _) fun _ cell hk'' _ =>
    .bind (body (AllKnown.mono ha ((hk.trans hk').trans hk''))) fun _ _ _ _ =>
      .bind (returned cell) fun _ _ _ hv => checkReturnValue_yields _ _ hv

theorem evalLeaves_yield (host : Host) {invoke : WorkflowInvocation → Eval Entity}
    (hi : ∀ h invocation, ArgumentsKnown h invocation.arguments →
      Yields schedule h (invoke invocation) Entity.Known) :
    (∀ h e, Yields schedule h ((evalLeaves host invoke).condition e) fun _ _ => True) ∧
      ∀ h statement, Yields schedule h ((evalLeaves host invoke).simple statement) fun _ _ => True :=
  ⟨fun _ => evalBoolean_yields host hi, fun _ => evalSimple_yields host hi⟩

theorem evalInvocations_yield (host : Host) (depth : Nat) : ∀ h invocation,
    ArgumentsKnown h invocation.arguments →
      Yields schedule h (evalInvocations host depth invocation) Entity.Known := by
  induction depth with
  | zero => exact fun _ _ _ => .throw _
  | succ depth ih =>
    obtain ⟨hb, hl⟩ := evalLeaves_yield host ih
    exact fun _ _ ha => evalInvocation_yields (fun _ => evalStatements_yields host hb hl) ha

theorem evalProgram_yields (host : Host) (depth : Nat) (program : Program) :
    Yields schedule h (evalProgram host depth program) fun _ _ => True := by
  obtain ⟨hb, hl⟩ := @evalLeaves_yield schedule host _ (evalInvocations_yield host depth)
  exact evalStatements_yields host hb hl program

/-- A new interpreter has its default values, its id and nothing else. -/
theorem stored_fresh (schedule : List Wake) : (State.fresh schedule).Stored [] where
  next := rfl
  cells k a hk := by
    have initial k a (_ : Storage.Known [] ⟨k, a⟩) : AllKnown [] (k.parts (Heap.initial.cell k a)) := by
      cases k <;> exact allKnown_nil
    exact parts_write initial allKnown_nil k a hk
  scopes scope hscope := by
    rw [List.mem_singleton.mp hscope]
    refine List.forall_mem_cons.mpr ⟨known_of_storage rfl rfl rfl, ?_⟩
    refine List.forall_mem_cons.mpr ⟨known_of_plain rfl rfl, ?_⟩
    refine List.forall_mem_cons.mpr ⟨known_of_plain rfl rfl, ?_⟩
    exact List.forall_mem_cons.mpr ⟨known_of_plain rfl rfl, allKnown_nil⟩
  returns cell e he := by
    cases he
  actions l a hl :=
    absurd (List.prefix_nil.mp hl) (List.append_ne_nil_of_right_ne_nil l (List.cons_ne_nil a []))

/-- **At every moment of every run of every program, an interpreter holds none but handles to storage
that has been made, as storage of the kind they take it for.** -/
theorem stored_of_run (host : Host) (depth : Nat) (program : Program) (schedule : List Wake)
    {l : List Action} (hl : l <+: (evalProgram host depth program (.fresh schedule)).log) :
    (l.foldl State.apply (.fresh schedule)).Stored l :=
  (evalProgram_yields (h := []) host depth program (stored_fresh schedule)).1 l hl

/-- What is in a value is known with it. -/
theorem known_of_mem_children {s : State} (hs : s.Stored h) {e x : Entity} (he : e.Known h)
    (hx : x ∈ s.heap.children e) : x.Known h := by
  cases e with
  | array a => exact hs.cells .array a (he.storage _ rfl) x hx
  | dictionary k a => exact hs.cells .dictionary a (he.storage _ rfl) x hx
  | workflowInvocation w i args => exact he.arguments x hx
  | _ => cases hx

theorem Storage.Known.address_lt {s : State} (hs : s.Stored h) {st : Storage} (hst : st.Known h) :
    st.address < s.heap.next := by
  rw [hs.next]
  unfold Storage.Known at hst
  split at hst
  next heq =>
    rw [heq]
    exact Nat.succ_pos _
  next a heq =>
    rw [heq]
    exact Nat.succ_lt_succ (List.getElem?_eq_some_iff.mp hst).1

/-- All storage of an entity that is known exists. -/
theorem separate_of_known {s : State} (hs : s.Stored h) {e : Entity} (he : e.Known h) :
    s.heap.Separate none e := by
  intro part hp
  induction hp with
  | here hp => exact ⟨(he.storage part hp).address_lt hs, nofun⟩
  | child hx _ ih => exact ih (known_of_mem_children hs he hx)

/-- **Every state that a run goes through is sound**: what variables and default values refer to
exists, in all of its parts. -/
theorem sound_of_run (host : Host) (depth : Nat) (program : Program) (schedule : List Wake)
    {l : List Action} (hl : l <+: (evalProgram host depth program (.fresh schedule)).log) :
    (l.foldl State.apply (.fresh schedule)).Stored l ∧
      (l.foldl State.apply (.fresh schedule)).Sound host := by
  have hs := stored_of_run host depth program schedule hl
  exact ⟨hs, fun _ _ he => separate_of_known hs (findEntity_known hs he),
    fun _ _ hd => separate_of_known hs (default_known hd)⟩

/-- `x : dictionary;` -/
def declaresDictionary : Program := [.variableDeclaration "x" "dictionary" none]

theorem sound_of_run_dictionary :
    let l := (evalProgram .plain 1 declaresDictionary (.fresh [])).log
    made l = [.integer, .dictionary] ∧ (l.foldl State.apply (.fresh [])).Stored l ∧
      (l.foldl State.apply (.fresh [])).Sound .plain :=
  ⟨rfl, sound_of_run .plain 1 declaresDictionary [] (List.prefix_refl _)⟩

end Programs

end EzCpp.Flow
