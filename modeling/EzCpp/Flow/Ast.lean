/-!
# The syntax tree of flow programs

The tree the parser builds, with its five layers of binary expressions. Source positions
(`Located`) are left out.
-/

namespace EzCpp.Flow.Ast

abbrev Identifier := String

/-- A path is parsed with at least one identifier, `front()`. -/
structure IdentifierPath where
  front : Identifier
  properties : List Identifier
deriving DecidableEq, Repr

namespace IdentifierPath

/-- `pop_back`, and what is left when there was one identifier alone. -/
def popBack (path : IdentifierPath) : Option IdentifierPath :=
  if path.properties.isEmpty then none else some ⟨path.front, path.properties.dropLast⟩

def back (path : IdentifierPath) : Identifier := path.properties.getLastD path.front

/-- The path as it is written, without blanks. -/
def code (path : IdentifierPath) : String := ".".intercalate (path.front :: path.properties)

end IdentifierPath

inductive DurationUnit
  | ms
  | sec
  | min
  | day
  | week
deriving DecidableEq, Repr

structure Duration where
  count : UInt64
  unit : DurationUnit
deriving DecidableEq, Repr

inductive Literal
  | boolean (b : Bool)
  | integer (i : Int64)
  | real (r : Float)
  | string (s : String)
  | duration (d : Duration)

structure Declaration where
  name : Identifier
  type : Identifier
deriving DecidableEq, Repr

structure Signature where
  inputs : List Declaration
  returnType : Option Identifier
deriving DecidableEq, Repr

/-! ## Expressions -/

inductive UnaryOperator
  | plus
  | minus
  | not
deriving DecidableEq, Repr

inductive MultiplicativeOperator
  | mult
  | div
deriving DecidableEq, Repr

inductive AdditiveOperator
  | plus
  | minus
deriving DecidableEq, Repr

inductive RelationalOperator
  | less
  | lessEq
  | greater
  | greaterEq
deriving DecidableEq, Repr

inductive EqualityOperator
  | eq
  | notEq
  | contained
  | is
deriving DecidableEq, Repr

inductive LogicalOperator
  | and
  | or
deriving DecidableEq, Repr

structure Operation (Term Operator : Type) where
  op : Operator
  term : Term

structure BinaryExpression (Term Operator : Type) where
  first : Term
  terms : List (Operation Term Operator)

structure FunctionArgument (E : Type) where
  name : Option Identifier
  value : E

structure FunctionCallOf (E : Type) where
  path : IdentifierPath
  arguments : List (FunctionArgument E)

/-- An entry of a dictionary. -/
structure Assignment (E : Type) where
  name : Identifier
  value : E

structure AwaitExpressionOf (E : Type) where
  expression : E
  duration : E

mutual

inductive PrimaryExpression
  | identifierPath (path : IdentifierPath)
  | literal (l : Literal)
  | functionCall (call : FunctionCallOf Expression)
  | array (elements : List Expression)
  | dictionary (elements : List (Assignment Expression))
  | expression (e : Expression)
  | awaitExpression (e : AwaitExpressionOf Expression)
  | tryExpression (e : Expression)

inductive UnaryExpression
  | mk (op : Option UnaryOperator) (expression : PrimaryExpression)

/-- A `LogicalExpression`. -/
inductive Expression
  | mk (logical : BinaryExpression (BinaryExpression (BinaryExpression (BinaryExpression
      (BinaryExpression UnaryExpression MultiplicativeOperator) AdditiveOperator)
      RelationalOperator) EqualityOperator) LogicalOperator)

end

abbrev MultiplicativeExpression := BinaryExpression UnaryExpression MultiplicativeOperator
abbrev AdditiveExpression := BinaryExpression MultiplicativeExpression AdditiveOperator
abbrev RelationalExpression := BinaryExpression AdditiveExpression RelationalOperator
abbrev EqualityExpression := BinaryExpression RelationalExpression EqualityOperator
abbrev LogicalExpression := BinaryExpression EqualityExpression LogicalOperator

abbrev FunctionCall := FunctionCallOf Expression
abbrev AwaitExpression := AwaitExpressionOf Expression

/-- An expression that is a unary expression alone. -/
def UnaryExpression.toExpression (e : UnaryExpression) : Expression :=
  .mk ⟨⟨⟨⟨⟨e, []⟩, []⟩, []⟩, []⟩, []⟩

/-- An expression that is a primary expression alone. -/
def PrimaryExpression.toExpression (e : PrimaryExpression) : Expression :=
  .mk ⟨⟨⟨⟨⟨.mk none e, []⟩, []⟩, []⟩, []⟩, []⟩

def IdentifierPath.toExpression (path : IdentifierPath) : Expression :=
  (PrimaryExpression.identifierPath path).toExpression

def Literal.toExpression (l : Literal) : Expression := (PrimaryExpression.literal l).toExpression

/-! ## Statements -/

structure ConditionBlock (S : Type) where
  condition : Expression
  statements : List S

structure IfBlockOf (S : Type) where
  ifBlock : ConditionBlock S
  elifBlocks : List (ConditionBlock S)
  elseBlock : List S

structure RepeatBlockOf (S : Type) where
  scope : List S

structure WorkflowDefinitionOf (S : Type) where
  name : Identifier
  signature : Option Signature
  statements : List S

inductive WorkflowStatement
  | importStatement (path : IdentifierPath)
  | variableDeclaration (name type : Identifier) (expression : Option Expression)
  | assignment (path : IdentifierPath) (expression : Expression)
  | delay (expression : Expression)
  | returnStatement (expression : Expression)
  | raise (expression : Expression)
  | breakStatement
  | expression (e : Expression)
  | ifBlock (block : IfBlockOf WorkflowStatement)
  | repeatBlock (block : RepeatBlockOf WorkflowStatement)
  | workflowDefinition (definition : WorkflowDefinitionOf WorkflowStatement)

abbrev WorkflowScope := List WorkflowStatement
abbrev IfBlock := IfBlockOf WorkflowStatement
abbrev RepeatBlock := RepeatBlockOf WorkflowStatement
abbrev WorkflowDefinition := WorkflowDefinitionOf WorkflowStatement
abbrev Program := List WorkflowStatement

end EzCpp.Flow.Ast
