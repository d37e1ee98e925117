import EzCpp.Flow.State

/-!
# What the types do

Construction, operators, properties and member functions of the static types, the free functions,
and the conversion of dictionaries to JSON and back. A type that leaves an operation out has the
one of a default `Type`, which fails.

`Host` is what comes from outside: the formatting done by other libraries, and the settings of the
interpreter. Values that contain themselves cannot be represented or exported; with as many steps
as there are cells, only these run out of them.
-/

namespace EzCpp.Flow

open EzCpp.Lib

structure Host where
  maxLoopCount : Nat := 1000
  /-- `std::to_string` of a double -/
  realToString : Float → String
  /-- `Entity::address`, formatted -/
  address : Entity → String
  /-- `boost::format`, `none` where it throws -/
  format : String → List String → Option String
  filePath : String
  /-- the time at which the default time point was made -/
  defaultTimePoint : Int

/-- A host that formats nothing. -/
def Host.plain : Host where
  realToString := fun _ => ""
  address := fun _ => ""
  format := fun _ _ => none
  filePath := ""
  defaultTimePoint := 0

variable (host : Host)

/-! ## Construction -/

def invalidConstructor (expected : FlowType) (arg : Entity) : EvalResult :=
  .error <| "Invalid construction. Expected '" ++ expected.name ++ "' while provided a '" ++
    arg.type.name ++ "'"

/-- `make_constructor`: nothing gives the default value itself. -/
def makeConstructor (type : FlowType) (default : Entity) (arg : Entity) : EvalResult :=
  match arg with
  | .void => .ok default
  | arg => if arg.type = type then .ok arg else invalidConstructor type arg

/-- The default values of the constructors are in the cells `0`. -/
def defaultValue : FlowType → Option Entity
  | .void => some .void
  | .boolean => some (.boolean 0)
  | .integer => some (.integer 0)
  | .real => some (.real 0)
  | .string => some (.string 0)
  | .duration => some (.duration 0)
  | .timePoint => some (.timePoint host.defaultTimePoint)
  | .array => some (.array 0)
  | _ => none

/-- `DictionaryType::construct` -/
def constructDictionary (k : DictionaryKind) (arg : Entity) : Eval EvalResult :=
  match arg with
  | .void => return .ok (.dictionary k (← Eval.alloc .dictionary .empty))
  | .error what => return .ok (.error what)
  | .dictionary k' a =>
    if k' = k then return .ok arg
    else if k' = .dictionary then
      return .ok (.dictionary k (← Eval.alloc .dictionary (← Eval.gets fun s => s.heap.cell .dictionary a)))
    else return invalidConstructor (.dictionary k) arg
  | arg => return invalidConstructor (.dictionary k) arg

/-- `entity::construct`. A type with no constructor has an empty function in its place. -/
def construct (type : FlowType) (arg : Entity) : Eval EvalResult :=
  match type with
  | .dictionary k => constructDictionary k arg
  | type =>
    match defaultValue host type with
    | some default => return makeConstructor type default arg
    | none => Eval.throw (.std "bad_function_call")

/-- `Entity::copy`: one level of storage is made anew. A handle that is the only one to its storage
keeps it instead, which nobody can see. -/
def copy (e : Entity) : Eval Entity :=
  match e with
  | .boolean a => return .boolean (← Eval.alloc .boolean (← Eval.gets fun s => s.heap.cell .boolean a))
  | .integer a => return .integer (← Eval.alloc .integer (← Eval.gets fun s => s.heap.cell .integer a))
  | .real a => return .real (← Eval.alloc .real (← Eval.gets fun s => s.heap.cell .real a))
  | .string a => return .string (← Eval.alloc .string (← Eval.gets fun s => s.heap.cell .string a))
  | .duration a =>
    return .duration (← Eval.alloc .duration (← Eval.gets fun s => s.heap.cell .duration a))
  | .array a => return .array (← Eval.alloc .array (← Eval.gets fun s => s.heap.cell .array a))
  | .dictionary k a =>
    return .dictionary k (← Eval.alloc .dictionary (← Eval.gets fun s => s.heap.cell .dictionary a))
  | e => return e

/-- `entity::assign` -/
def assign (x : Option Variable) (lhs rhs : Entity) : Eval EvalResult := do
  let result ← Eval.gets fun s => (s.heap.assign lhs rhs).map Prod.snd
  Eval.perform (.assign x lhs rhs)
  pure result

/-- `entity::convert`: no type is converted to another one. -/
def convert (e : Entity) (type : FlowType) : EvalResult :=
  if !e.type.same type then
    .error <| "Type '" ++ e.type.name ++ "' not convertible to '" ++ type.name ++ "'"
  else .ok e

/-! ## Operators -/

inductive BinaryOp
  | mult
  | div
  | plus
  | minus
  | less
  | lessEq
  | greater
  | greaterEq
  | eq
  | notEq
  | contains
  | and
  | or
deriving DecidableEq, Repr

def BinaryOp.symbol : BinaryOp → String
  | .mult => "*"
  | .div => "/"
  | .plus => "+"
  | .minus => "-"
  | .less => "<"
  | .lessEq => "<="
  | .greater => ">"
  | .greaterEq => ">="
  | .eq => "=="
  | .notEq => "!="
  | .contains => "in"
  | .and => "and"
  | .or => "or"

def unaryOpNotFound (symbol : String) (arg : Entity) : EvalResult :=
  .error <| "No matching for operator '" ++ symbol ++ "' for type '" ++ arg.type.name ++ "'"

def binaryOpNotFound (op : BinaryOp) (lhs rhs : Entity) : EvalResult :=
  .error <| "No matching for operator '" ++ op.symbol ++ "' for types '" ++ lhs.type.name ++
    "' and '" ++ rhs.type.name ++ "' "

def unaryOp (op : Ast.UnaryOperator) (arg : Entity) : Eval EvalResult :=
  match op, arg with
  | .plus, .integer a => return .ok (.integer a)
  | .minus, .integer a =>
    return .ok (.integer (← Eval.alloc .integer (← Eval.gets fun s => -s.heap.cell .integer a)))
  | .plus, arg => return unaryOpNotFound "+" arg
  | .minus, arg => return unaryOpNotFound "-" arg
  | .not, arg => return unaryOpNotFound "!" arg

/-- What an operator of `Integer` makes of two numbers, as the source has them: `*` compares, and
`/` multiplies. -/
inductive Number
  | boolean (b : Bool)
  | integer (i : Int64)
  | real (r : Float)

def integerOp (op : BinaryOp) (lhs rhs : Int64) : Option Number :=
  match op with
  | .mult => some (.boolean (lhs == rhs))
  | .div => some (.integer (lhs * rhs))
  | .plus => some (.integer (lhs + rhs))
  | .minus => some (.integer (lhs - rhs))
  | .less => some (.boolean (decide (lhs < rhs)))
  | .lessEq => some (.boolean (decide (lhs ≤ rhs)))
  | .greater => some (.boolean (decide (rhs < lhs)))
  | .greaterEq => some (.boolean (decide (rhs ≤ lhs)))
  | .eq => some (.boolean (lhs == rhs))
  | .notEq => some (.boolean (lhs != rhs))
  | .contains | .and | .or => none

def integerRealOp (op : BinaryOp) (lhs : Int64) (rhs : Float) : Option Number :=
  match op with
  | .mult => some (.boolean (lhs.toFloat == rhs))
  | .div => some (.real (lhs.toFloat * rhs))
  | .plus => some (.real (lhs.toFloat + rhs))
  | .minus => some (.real (lhs.toFloat - rhs))
  | .less => some (.boolean (decide (lhs.toFloat < rhs)))
  | .lessEq => some (.boolean (decide (lhs.toFloat ≤ rhs)))
  | .greater => some (.boolean (decide (rhs < lhs.toFloat)))
  | .greaterEq => some (.boolean (decide (rhs ≤ lhs.toFloat)))
  | .eq => some (.boolean (lhs.toFloat == rhs))
  | .notEq => some (.boolean (lhs.toFloat != rhs))
  | .contains | .and | .or => none

def Number.toEntity : Number → Eval Entity
  | .boolean b => return .boolean (← Eval.alloc .boolean b)
  | .integer i => return .integer (← Eval.alloc .integer i)
  | .real r => return .real (← Eval.alloc .real r)

/-- The operators of the type of `self`. -/
def binaryOp (op : BinaryOp) (self other : Entity) : Eval EvalResult := do
  match self, other with
  | .integer a, .integer b =>
    match ← Eval.gets fun s => integerOp op (s.heap.cell .integer a) (s.heap.cell .integer b) with
    | some n => return .ok (← n.toEntity)
    | none => return binaryOpNotFound op self other
  | .integer a, .real b =>
    match ← Eval.gets fun s => integerRealOp op (s.heap.cell .integer a) (s.heap.cell .real b) with
    | some n => return .ok (← n.toEntity)
    | none => return binaryOpNotFound op self other
  | .dictionary _ a, other =>
    if op = .contains then
      match other with
      | .string b =>
        let found ← Eval.gets fun s =>
          (s.heap.cell .dictionary a).contains (s.heap.cell .string b)
        return .ok (.boolean (← Eval.alloc .boolean found))
      | other => return .error ("Expected a string, got a " ++ other.type.name)
    else return binaryOpNotFound op self other
  | self, other => return binaryOpNotFound op self other

/-! ## Properties and member functions -/

/-- `Type::get_property`: static properties, then member functions, then entries. -/
def getProperty (self : Entity) (name : String) : Eval EvalResult := do
  let propertyNotFound := Except.error ("Property '" ++ name ++ "' not found")
  match self with
  | .array a =>
    if name = "size" then
      let size ← Eval.gets fun s => Int64.ofNat (s.heap.cell .array a).length
      return .ok (.integer (← Eval.alloc .integer size))
    else return propertyNotFound
  | .dictionary k a =>
    if name = "size" then
      let size ← Eval.gets fun s => Int64.ofNat (s.heap.cell .dictionary a).size
      return .ok (.integer (← Eval.alloc .integer size))
    else if name = "insert" then return .ok (.memberFunction k.name "insert")
    else
      match ← Eval.gets fun s => (s.heap.cell .dictionary a).find? name with
      | some e => return .ok e
      | none => return propertyNotFound
  | _ => return propertyNotFound

def invalidFunctionCall (type name reason : String) : EvalResult :=
  .error <| "Invalid call of '" ++ type ++ "." ++ name ++ "': " ++ reason

/-- `DictionaryType::insert`. Arguments with names are not accepted. -/
def insert (k : DictionaryKind) (a : Nat) (args : CallArguments) : Eval EvalResult :=
  if args.length ≠ 2 then return invalidFunctionCall k.name "insert" "expecting 2 arguments"
  else if !args.isArray then
    return invalidFunctionCall k.name "insert" "arguments should all be named or unnamed"
  else
    match args with
    | [(_, .string key), (_, value)] => do
      Eval.perform (.insert a key value)
      return .ok .void
    | _ => return invalidFunctionCall k.name "insert" "expected a string key"

/-- `Type::call_mem_function` -/
def callMemFunction (self : Entity) (name : String) (args : CallArguments) : Eval EvalResult :=
  match self with
  | .dictionary k a =>
    if name = "insert" then insert k a args
    else return .error ("Member function '" ++ name ++ "' not found")
  | _ => return .error ("Member function '" ++ name ++ "' not found")

/-! ## Representation and free functions -/

/-- How many nested representations there can be in a heap whose values are finite. -/
def Heap.depth (h : Heap) : Nat := h.next + 1

def Ast.DurationUnit.suffix : Ast.DurationUnit → String
  | .ms => "ms"
  | .sec => "sec"
  | .min => "min"
  | .day => "day"
  | .week => "week"

/-- `entity::representation`, `none` where it does not end. -/
def representation (h : Heap) : Nat → Entity → Option String
  | 0, _ => none
  | n + 1, e =>
    match e with
    | .error what => some what
    | .void => some "void"
    | .boolean a => some (if h.cell .boolean a then "true" else "false")
    | .integer a => some (toString (h.cell .integer a))
    | .real a => some (host.realToString (h.cell .real a))
    | .string a => some ("'" ++ h.cell .string a ++ "'")
    | .duration a =>
      let d := h.cell .duration a
      some (toString d.count ++ d.unit.suffix)
    | .array a => do
      let elements ← (h.cell .array a).mapM (representation h n)
      pure ("[" ++ ", ".intercalate elements ++ "]")
    | .dictionary _ a => do
      let elements ← (h.cell .dictionary a).entries.mapM fun entry => do
        pure (entry.1 ++ "=" ++ (← representation h n entry.2))
      pure ("(" ++ ", ".intercalate elements ++ ")")
    | .workflowDefinition w => some ("Workflow '" ++ w.name ++ "' defined in " ++ host.filePath)
    | .workflowInvocation _ _ _ => some "Workflow invokation"
    | .timePoint _ | .memberFunction _ _ | .freeFunction _ =>
      some (e.type.name ++ "(" ++ host.address e ++ ")")

def represent (e : Entity) : Eval String := do
  match ← Eval.gets fun s => representation host s.heap s.heap.depth e with
  | some text => pure text
  | none => Eval.throw .crash

def representAll : List Entity → Eval (List String)
  | [] => pure []
  | e :: es => do
    let text ← represent host e
    let texts ← representAll es
    pure (text :: texts)

/-- `boost::replace_all`, over what is left of the text. -/
def replaceAll (pattern replacement : List Char) : Nat → List Char → List Char
  | 0, text => text
  | _ + 1, [] => []
  | n + 1, c :: text =>
    if pattern.isPrefixOf (c :: text) then
      replacement ++ replaceAll pattern replacement n ((c :: text).drop pattern.length)
    else c :: replaceAll pattern replacement n text

/-- The base string with each placeholder from the `n`-th down to the first one in the notation of
`boost::format`. -/
def toBoostFormat : Nat → String → String
  | 0, base => base
  | n + 1, base =>
    let pattern := "\x7b" ++ toString (n + 1) ++ "\x7d"
    let replaced := replaceAll pattern.toList ("%" ++ toString (n + 1) ++ "%").toList
      (base.length + 1) base.toList
    toBoostFormat n (String.ofList replaced)

def formatUsage : String := "Invalid arguments !! Usage: ('base string', args ...) "

/-- `format_args` -/
def formatArgs (args : CallArguments) : Eval (Except String String) :=
  match args with
  | (_, .string a) :: rest => do
    let base ← Eval.gets fun s => s.heap.cell .string a
    if rest.isEmpty then return .ok base
    else
      let texts ← representAll host (rest.map Prod.snd)
      match host.format (toBoostFormat rest.length base) texts with
      | some text => return .ok text
      | none => return .error formatUsage
  | _ => return .error formatUsage

/-- `FreeFunction::call` -/
def callFreeFunction (f : Builtin) (args : CallArguments) : Eval EvalResult :=
  match f with
  | .println => do
    match ← formatArgs host args with
    | .ok text | .error text => Eval.perform (.print ("[FLOW] " ++ text))
    return .ok .void
  | .panic => do
    let texts ← representAll host (args.map Prod.snd)
    Eval.throw (.panic (String.join (texts.map (· ++ " "))))
  | .strFormat => do
    match ← formatArgs host args with
    | .ok text => return .ok (.string (← Eval.alloc .string text))
    | .error what => return .error what

/-! ## JSON -/

/-- `to_json` of an entry or element. Values of the other types are left out. -/
def toJson (h : Heap) : Nat → Entity → Option (Option Json)
  | 0, _ => none
  | n + 1, e =>
    match e with
    | .boolean a => some (some (.bool (h.cell .boolean a)))
    | .integer a => some (some (.int64 (h.cell .integer a)))
    | .real a => some (some (.double (h.cell .real a)))
    | .string a => some (some (.string (h.cell .string a)))
    | .array a => do
      let elements ← (h.cell .array a).mapM (toJson h n)
      pure (some (.array (elements.filterMap fun v => v)))
    | .dictionary .dictionary a => do
      let members ← (h.cell .dictionary a).entries.mapM fun entry => do
        pure ((← toJson h n entry.2).map fun v => (entry.1, v))
      pure (some (.object (members.filterMap fun m => m)))
    | _ => some none

/-- `to_json` of a request: it is exported as the dictionary it is. -/
def requestToJson (a : Nat) : Eval Json := do
  match ← Eval.gets fun s => toJson s.heap s.heap.depth (.dictionary .dictionary a) with
  | some (some message) => pure message
  | _ => Eval.throw .crash

mutual

/-- `from_json` of a value that is not null. -/
def fromJson : Json → Eval (Option Entity)
  | .null => return none
  | .bool b => return some (.boolean (← Eval.alloc .boolean b))
  | .int64 i => return some (.integer (← Eval.alloc .integer i))
  | .uint64 u => return some (.integer (← Eval.alloc .integer u.toInt64))
  | .double d => return some (.real (← Eval.alloc .real d))
  | .string s => return some (.string (← Eval.alloc .string s))
  | .array vs => do
    let elements ← fromJsonArray vs
    return some (.array (← Eval.alloc .array elements))
  | .object members => do
    let entries ← fromJsonObject .empty members
    return some (.dictionary .dictionary (← Eval.alloc .dictionary entries))

def fromJsonArray : List Json → Eval (List Entity)
  | [] => return []
  | v :: vs => do
    let e ← fromJson v
    let es ← fromJsonArray vs
    return e.toList ++ es

def fromJsonObject (entries : SortedMap String Entity) : List (String × Json) →
    Eval (SortedMap String Entity)
  | [] => return entries
  | (key, v) :: members => do
    match ← fromJson v with
    | some e => fromJsonObject (entries.insert key e) members
    | none => fromJsonObject entries members

end

end EzCpp.Flow
