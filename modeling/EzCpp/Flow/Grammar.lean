import EzCpp.Flow.Ast
import EzCpp.Lib.Peg
import Mathlib.Algebra.Group.Nat.Defs

/-!
# The grammar of flow programs

The rules of `parser/grammar`, over `Lib.Peg`. Characters are those of the C locale. A token skips
the blanks and comments before it; inside a `lexeme` nothing is skipped.

Rules that need an expression or a statement take the parser of it, and repetitions take fuel. A
nested expression or statement begins after at least one character of the one around it, so the
length of the text is enough fuel for both.

`reals` computes the number of a real literal from its characters, where it is in range.
-/

namespace EzCpp.Flow.Grammar

open EzCpp.Lib Ast Parser

/-! ## Blanks and comments -/

def isSpace (c : Char) : Bool := c = ' ' || ('\t' ≤ c && c ≤ '\r')

/-- `single_line_comment`, after its two slashes. -/
def lineRest : List Char → List Char
  | [] => []
  | '\r' :: '\n' :: t => t
  | '\n' :: t => t
  | '\r' :: t => t
  | _ :: t => lineRest t

mutual

def blockComment : Nat → List Char → Option (List Char)
  | n + 1, '/' :: '*' :: t =>
    match blockBody n t with
    | '*' :: '/' :: rest => some rest
    | _ => none
  | _, _ => none

/-- `*(block_comment | (x3::char_ - "*/"))` -/
def blockBody : Nat → List Char → List Char
  | 0, t => t
  | _ + 1, [] => []
  | _ + 1, '*' :: '/' :: t => '*' :: '/' :: t
  | n + 1, c :: t =>
    match blockComment n (c :: t) with
    | some rest => blockBody n rest
    | none => blockBody n t

end

def comment : List Char → Option (List Char)
  | '/' :: '/' :: t => some (lineRest t)
  | t => blockComment (2 * t.length + 2) t

def skipper : List Char → Option (List Char)
  | [] => none
  | c :: t => if isSpace c then some t else comment (c :: t)

def skipFrom : Nat → List Char → List Char
  | 0, t => t
  | n + 1, t =>
    match skipper t with
    | some rest => skipFrom n rest
    | none => t

def skip (t : List Char) : List Char := skipFrom t.length t

variable {α : Type}

def lexeme (p : Parser α) : Parser α := fun t => p (skip t)

def lit (s : String) : Parser Unit := lexeme (text s)

def symbol (table : List (String × α)) : Parser α := lexeme (symbols table)

/-! ## Symbols -/

def semicolon : Parser Unit := lit ";"

def semicolons (n : Nat) : Parser Unit := do
  semicolon
  let _ ← many semicolon n

def optionalSemicolons (n : Nat) : Parser Unit := do
  let _ ← many semicolon n

def boolean : List (String × Bool) := [("true", true), ("false", false)]

def durationUnit : List (String × DurationUnit) :=
  [("ms", .ms), ("sec", .sec), ("mn", .min), ("day", .day), ("week", .week)]

def logicalOp : List (String × LogicalOperator) := [("and", .and), ("or", .or)]

def equalityOp : List (String × EqualityOperator) :=
  [("==", .eq), ("!=", .notEq), ("in", .contained), ("is", .is)]

def relationalOp : List (String × RelationalOperator) :=
  [("<", .less), ("<=", .lessEq), (">", .greater), (">=", .greaterEq)]

def additiveOp : List (String × AdditiveOperator) := [("+", .plus), ("-", .minus)]

def multiplicativeOp : List (String × MultiplicativeOperator) := [("*", .mult), ("/", .div)]

def unaryOp : List (String × UnaryOperator) := [("+", .plus), ("-", .minus), ("not", .not)]

def keywords : List String :=
  ["import", "module", "delay", "return", "raise", "break", "try", "repeat", "if", "await", "try",
    "elif", "else", "in", "is", "for", "and", "or", "not"]

def keyword : List (String × Unit) := keywords.map fun kw => (kw, ())

def startsIdentifier (c : Char) : Bool := c.isAlpha || c = '_'

def continuesIdentifier (c : Char) : Bool := c.isAlphanum || c = '_'

def identifierBase : Parser Identifier
  | [] => .fail
  | c :: t =>
    if startsIdentifier c then
      .ok (String.ofList (c :: t.takeWhile continuesIdentifier)) (t.dropWhile continuesIdentifier)
    else .fail

/-- A keyword, with nothing after it that an identifier could begin with. -/
def reserved : Parser Unit := lexeme do
  symbols keyword
  notAhead identifierBase

def identifier : Parser Identifier := do
  notAhead reserved
  lexeme identifierBase

def identifierPath (n : Nat) : Parser IdentifierPath := do
  let front ← identifier
  let properties ← many (do lit "."; identifier) n
  return ⟨front, properties⟩

/-! ## Literals -/

def quoted (quote : Char) : Parser String
  | [] => .fail
  | c :: t =>
    if c = quote then
      match t.dropWhile (· ≠ quote) with
      | [] => .fail
      | _ :: rest => .ok (String.ofList (t.takeWhile (· ≠ quote))) rest
    else .fail

def string : Parser String := firstOf [lexeme (quoted '\''), lexeme (quoted '"')]

/-- The value of a sequence of digits. -/
def natOf (digits : List Char) : Nat :=
  digits.foldl (fun n c => 10 * n + (c.toNat - '0'.toNat)) 0

/-- Digits of a value of at most `bound`. -/
def digits (bound : Nat) : Parser Nat := fun t =>
  let ds := t.takeWhile Char.isDigit
  if ds = [] ∨ bound < natOf ds then .fail else .ok (natOf ds) (t.dropWhile Char.isDigit)

/-- `x3::uint_` -/
def uint : Parser Nat := digits (2 ^ 32 - 1)

def duration : Parser Duration := do
  let count ← uint
  let unit ← symbols durationUnit
  return ⟨.ofNat count, unit⟩

/-- `x3::int_`: the sign, and digits of an `int`. -/
def integer : Parser Int64 := lexeme fun t =>
  match t with
  | '-' :: t => (do let i ← digits (2 ^ 31); return Int64.ofInt (-i)) t
  | '+' :: t => (do let i ← digits (2 ^ 31 - 1); return Int64.ofInt i) t
  | t => (do let i ← digits (2 ^ 31 - 1); return Int64.ofInt i) t

/-- These lower case letters, in any case. -/
def noCase : List Char → List Char → Option (List Char)
  | [], t => some t
  | l :: ls, c :: t => if c.toLower = l then noCase ls t else none
  | _ :: _, [] => none

/-- `parse_nan`: what follows `nan` in parentheses belongs to it. -/
def nan (t : List Char) : Option (List Char) :=
  (noCase ['n', 'a', 'n'] t).bind fun rest =>
    match rest with
    | '(' :: inside => (inside.dropWhile (· ≠ ')')).tail?
    | rest => some rest

def infinity (t : List Char) : Option (List Char) :=
  (noCase ['i', 'n', 'f'] t).map fun rest => (noCase ['i', 'n', 'i', 't', 'y'] rest).getD rest

/-- The exponent of a number, without its letter. -/
def exponent (t : List Char) : Option (List Char) :=
  let t := match t with
    | '+' :: t => t
    | '-' :: t => t
    | t => t
  if t.takeWhile Char.isDigit = [] then none else some (t.dropWhile Char.isDigit)

def exponentLetter : List Char → Option (List Char)
  | 'e' :: t => some t
  | 'E' :: t => some t
  | _ => none

/-- The end of a number with a point or an exponent, as `strict_real_policies` wants it. -/
def numeral (t : List Char) : Option (List Char) :=
  let ds := t.takeWhile Char.isDigit
  match t.dropWhile Char.isDigit with
  | '.' :: t =>
    if ds = [] ∧ t.takeWhile Char.isDigit = [] then none
    else
      let rest := t.dropWhile Char.isDigit
      match exponentLetter rest with
      | some t => exponent t
      | none => some rest
  | rest => if ds = [] then none else (exponentLetter rest).bind exponent

/-- How the numbers of real literals are computed. -/
structure Reals where
  number : List Char → Option Float
  nan : Float
  infinity : Float

section Rules

variable (reals : Reals)

def unsignedReal : Parser Float := fun t =>
  if t.takeWhile Char.isDigit = [] ∧ (nan t).isSome then .ok reals.nan ((nan t).getD [])
  else if t.takeWhile Char.isDigit = [] ∧ (infinity t).isSome then
    .ok reals.infinity ((infinity t).getD [])
  else
    match numeral t with
    | none => .fail
    | some rest =>
      match reals.number (t.take (t.length - rest.length)) with
      | none => .fail
      | some r => .ok r rest

def real : Parser Float := lexeme fun t =>
  match t with
  | '-' :: t => (do let r ← unsignedReal reals; return -r) t
  | '+' :: t => unsignedReal reals t
  | t => unsignedReal reals t

/-- The symbols of `boolean` skip what is before them, also where there are none; so `duration`,
which skips nothing itself, is tried after the blanks. -/
def literal : Parser Literal := firstOf [
  do let s ← string; return .string s,
  do let b ← symbol boolean; return .boolean b,
  do let d ← lexeme duration; return .duration d,
  do let r ← real reals; return .real r,
  do let i ← integer; return .integer i]

/-! ## Expressions -/

variable (n : Nat) (expression : Parser Expression)

def declaration : Parser Declaration := do
  let name ← identifier
  lit ":"
  let type ← identifier
  return ⟨name, type⟩

def declarationList : Parser (List Declaration) := list n (lit ",") declaration

def signature : Parser Signature := do
  lit "("
  let inputs ← option (declarationList n)
  lit ")"
  let returnType ← option (do lit "->"; identifier.expect)
  return ⟨inputs.getD [], returnType⟩

def assignment : Parser (Assignment Expression) := do
  let name ← identifier
  lit "="
  let value ← expression
  return ⟨name, value⟩

def dictionary : Parser (List (Assignment Expression)) := do
  lit "("
  let elements ← option (list n (lit ",") (assignment expression))
  lit ")"
  return elements.getD []

def array : Parser (List Expression) := do
  lit "["
  let elements ← option (list n (lit ",") expression)
  lit "]"
  return elements.getD []

/-- A failed `-(identifier >> '=')` names nothing. -/
def functionArgument : Parser (FunctionArgument Expression) := do
  let name ← option (do let name ← identifier; lit "="; return name)
  let value ← expression
  return ⟨name, value⟩

def functionCall : Parser FunctionCall := do
  let path ← identifierPath n
  lit "("
  let arguments ← option (list n (lit ",") (functionArgument expression))
  lit ")"
  return ⟨path, arguments.getD []⟩

def awaitExpression : Parser AwaitExpression := do
  lit "await"
  let e ← expression
  lit "for"
  let duration ← expression
  return ⟨e, duration⟩

def tryExpression : Parser Expression := do
  lit "try"
  expression

def parenthesised : Parser Expression := do
  lit "("
  let e ← expression.expect
  (lit ")").expect
  return e

def primaryExpr : Parser PrimaryExpression := firstOf [
  do let e ← awaitExpression expression; return .awaitExpression e,
  do let e ← tryExpression expression; return .tryExpression e,
  do let l ← literal reals; return .literal l,
  do let call ← functionCall n expression; return .functionCall call,
  do let path ← identifierPath n; return .identifierPath path,
  do let elements ← array n expression; return .array elements,
  do let elements ← dictionary n expression; return .dictionary elements,
  do let e ← parenthesised expression; return .expression e]

def unaryExpr : Parser UnaryExpression := do
  let op ← option (symbol unaryOp)
  let e ← primaryExpr reals n expression
  return .mk op e

/-- `term >> *(op > term)` -/
def binaryExpr {Term Operator : Type} (op : List (String × Operator)) (term : Parser Term) :
    Parser (BinaryExpression Term Operator) := do
  let first ← term
  let terms ← many (do let op ← symbol op; let term ← term.expect; return ⟨op, term⟩) n
  return ⟨first, terms⟩

def multiplicativeExpr : Parser MultiplicativeExpression :=
  binaryExpr n multiplicativeOp (unaryExpr reals n expression)

def additiveExpr : Parser AdditiveExpression :=
  binaryExpr n additiveOp (multiplicativeExpr reals n expression)

def relationalExpr : Parser RelationalExpression :=
  binaryExpr n relationalOp (additiveExpr reals n expression)

def equalityExpr : Parser EqualityExpression :=
  binaryExpr n equalityOp (relationalExpr reals n expression)

def logicalExpr : Parser LogicalExpression :=
  binaryExpr n logicalOp (equalityExpr reals n expression)

end Rules

def expression (reals : Reals) : Nat → Parser Expression
  | 0 => fun _ => .fail
  | n + 1 => do
    let logical ← logicalExpr reals n (expression reals n)
    return .mk logical

/-! ## Statements -/

section Statements

variable (n : Nat) (expression : Parser Expression) (statement : Parser WorkflowStatement)

def importStatement : Parser IdentifierPath := do
  lit "import"
  identifierPath n

def delayStatement : Parser Expression := do
  lit "delay"
  expression

def returnStatement : Parser Expression := do
  lit "return"
  expression

def raiseStatement : Parser Expression := do
  lit "raise"
  expression

def breakStatement : Parser Unit := symbol [("break", ())]

def variableDeclaration : Parser (Identifier × Identifier × Option Expression) := do
  let name ← identifier
  lit ":"
  let type ← identifier
  let value ← option (do lit "="; expression)
  return (name, type, value)

def assignmentStatement : Parser (IdentifierPath × Expression) := do
  let path ← identifierPath n
  lit "="
  let value ← expression
  return (path, value)

def scope : Parser WorkflowScope := do
  lit "\x7b"
  let statements ← many statement n
  lit "\x7d"
  return statements

def repeatBlock : Parser RepeatBlock := do
  lit "repeat"
  let scope ← scope n statement
  return ⟨scope⟩

def conditionBlock : Parser (ConditionBlock WorkflowStatement) := do
  let condition ← expression
  let statements ← scope n statement
  return ⟨condition, statements⟩

def ifBlock : Parser IfBlock := do
  lit "if"
  let ifBlock ← conditionBlock n expression statement
  let elifBlocks ← many (do lit "elif"; conditionBlock n expression statement) n
  let elseBlock ← option (do lit "else"; scope n statement)
  return ⟨ifBlock, elifBlocks, elseBlock.getD []⟩

def workflowDefinition : Parser WorkflowDefinition := do
  let name ← identifier
  lit ":"
  lit "workflow"
  lit "="
  let signature ← option (signature n)
  let statements ← scope n statement
  return ⟨name, signature, statements⟩

/-- The alternatives of `workflow_statement`. -/
def alternatives : List (Parser WorkflowStatement) := [
  do let path ← importStatement n; semicolons n; return .importStatement path,
  do let w ← workflowDefinition n statement; optionalSemicolons n; return .workflowDefinition w,
  do let e ← returnStatement expression; semicolons n; return .returnStatement e,
  do let e ← raiseStatement expression; semicolons n; return .raise e,
  do let e ← delayStatement expression; semicolons n; return .delay e,
  do breakStatement; semicolons n; return .breakStatement,
  do let block ← ifBlock n expression statement; optionalSemicolons n; return .ifBlock block,
  do let block ← repeatBlock n statement; optionalSemicolons n; return .repeatBlock block,
  do
    let (name, type, value) ← variableDeclaration expression
    semicolons n
    return .variableDeclaration name type value,
  do let (path, e) ← assignmentStatement n expression; semicolons n; return .assignment path e,
  do let e ← expression; semicolons n; return .expression e]

end Statements

def workflowStatement (reals : Reals) : Nat → Parser WorkflowStatement
  | 0 => fun _ => .fail
  | n + 1 => firstOf (alternatives n (expression reals n) (workflowStatement reals n))

def program (reals : Reals) (n : Nat) : Parser Program := many (workflowStatement reals n) n

/-! ## Parsing a text -/

/-- `parse_using`: the whole text, with blanks and comments after it. -/
def parseUsing (rule : Nat → Parser α) (code : String) : Option α :=
  match rule (code.toList.length + 1) code.toList with
  | .ok a rest => if skip rest = [] then some a else none
  | _ => none

/-- `parse` -/
def parse (reals : Reals) (code : String) : Option Program := parseUsing (program reals) code

end EzCpp.Flow.Grammar
