import EzCpp.Flow.Ast
import EzCpp.Lib.SortedMap
import Mathlib.Data.String.Basic

/-!
# Entities and their storage

An entity is a handle: a variant whose alternatives are shared pointers (`Shared<Storage>`) or plain
data. Copying an entity copies the pointer. The storage behind the pointers is an explicit heap of
cells, typed by their kind, so that a handle always points to a cell of its own kind. Storage is
never freed: a cell that nothing points to cannot be told from one that is gone.
-/

namespace EzCpp.Flow

open EzCpp.Lib

/-- The types that are kept as a dictionary. -/
inductive DictionaryKind
  | dictionary
  | action
  | actionReply
  | campaign
  | campaignReply
  | httpRequest
  | httpReply
  | deviceInfoRequest
  | deviceInfoReply
deriving DecidableEq, Repr

/-- The functions every interpreter starts with. -/
inductive Builtin
  | println
  | panic
  | strFormat
deriving DecidableEq, Repr

/-- The syntax a workflow invocation was made by. -/
inductive Instanciation
  | functionCall (call : Ast.FunctionCall)
  | expression (e : Ast.Expression)

/-- `Entity`. The addresses are those of the storage. -/
inductive Entity
  | error (what : String)
  | void
  | boolean (a : Nat)
  | integer (a : Nat)
  | real (a : Nat)
  | string (a : Nat)
  | duration (a : Nat)
  | timePoint (value : Int)
  | array (a : Nat)
  | dictionary (k : DictionaryKind) (a : Nat)
  | memberFunction (typeName name : String)
  | freeFunction (f : Builtin)
  | workflowDefinition (w : Ast.WorkflowDefinition)
  | workflowInvocation (w : Ast.WorkflowDefinition) (instanciation : Instanciation)
      (arguments : List (Option String × Entity))

/-- `CallArguments`; the index of an argument is its position. -/
abbrev CallArguments := List (Option String × Entity)

namespace CallArguments

/-- The first argument with this name. -/
def find (args : CallArguments) (name : String) : Option Entity :=
  (List.find? (fun arg => arg.1 == some name) args).map Prod.snd

def isArray (args : CallArguments) : Bool := List.all args fun arg => arg.1.isNone

end CallArguments

/-! ## Types -/

/-- The static types, in the order of `EntityTypeList` but for the dictionary types. -/
inductive FlowType
  | error
  | void
  | boolean
  | integer
  | real
  | string
  | duration
  | timePoint
  | array
  | dictionary (k : DictionaryKind)
  | memberFunction
  | freeFunction
  | workflowDefinition
  | workflowInvocation
deriving DecidableEq, Repr

def DictionaryKind.name : DictionaryKind → String
  | .dictionary => "dictionary"
  | .action => "action"
  | .actionReply => "action_reply"
  | .campaign => "campaign"
  | .campaignReply => "campaign_reply"
  | .httpRequest => "http_request"
  | .httpReply => "http_reply"
  | .deviceInfoRequest => "device_info_request"
  | .deviceInfoReply => "device_info_reply"

namespace FlowType

def name : FlowType → String
  | .error => "error"
  | .void => "void"
  | .boolean => "boolean"
  | .integer => "integer"
  | .real => "real"
  | .string => "string"
  | .duration => "duration"
  | .timePoint => "time_point"
  | .array => "array"
  | .dictionary k => k.name
  | .memberFunction => "member function"
  | .freeFunction => "free function"
  | .workflowDefinition => "workflow"
  | .workflowInvocation => "workflow invocation"

/-- The function and workflow types keep the id of a default `Type`. -/
def id : FlowType → String
  | .memberFunction | .freeFunction | .workflowDefinition | .workflowInvocation => "undefined"
  | t => t.name

/-- `same_type` -/
def same (t u : FlowType) : Bool := t.id == u.id

/-- `EntityTypeList` -/
def entityTypeList : List FlowType :=
  [.error, .void, .boolean, .integer, .real, .string, .duration, .timePoint, .array,
    .dictionary .dictionary, .memberFunction, .freeFunction, .workflowDefinition,
    .workflowInvocation, .dictionary .action, .dictionary .actionReply, .dictionary .campaign,
    .dictionary .campaignReply, .dictionary .httpRequest, .dictionary .httpReply,
    .dictionary .deviceInfoRequest, .dictionary .deviceInfoReply]

end FlowType

def Entity.type : Entity → FlowType
  | .error _ => .error
  | .void => .void
  | .boolean _ => .boolean
  | .integer _ => .integer
  | .real _ => .real
  | .string _ => .string
  | .duration _ => .duration
  | .timePoint _ => .timePoint
  | .array _ => .array
  | .dictionary k _ => .dictionary k
  | .memberFunction _ _ => .memberFunction
  | .freeFunction _ => .freeFunction
  | .workflowDefinition _ => .workflowDefinition
  | .workflowInvocation _ _ _ => .workflowInvocation

/-! ## The heap -/

inductive Kind
  | boolean
  | integer
  | real
  | string
  | duration
  | array
  | dictionary
deriving DecidableEq, Repr

/-- What a cell of this kind holds. -/
abbrev Kind.Content : Kind → Type
  | .boolean => Bool
  | .integer => Int64
  | .real => Float
  | .string => String
  | .duration => Ast.Duration
  | .array => List Entity
  | .dictionary => SortedMap String Entity

/-- A cell: its kind, and its address among those of this kind. -/
structure Storage where
  kind : Kind
  address : Nat
deriving DecidableEq, Repr

structure Heap where
  next : Nat
  cell : (k : Kind) → Nat → k.Content

namespace Heap

/-- The value a type's constructor was made with. It is in the cell `0` of its kind. -/
def initialDefault : (k : Kind) → k.Content
  | .boolean => false
  | .integer => 0
  | .real => 0.0
  | .string => ""
  | .duration => ⟨0, .sec⟩
  | .array => []
  | .dictionary => .empty

/-- The heap of a process that has not evaluated anything. -/
def initial : Heap := ⟨1, fun k _ => initialDefault k⟩

def write (h : Heap) (k : Kind) (a : Nat) (c : k.Content) : Heap :=
  { h with cell := fun k' a' => if e : k = k' then if a' = a then e ▸ c else h.cell k' a'
                                else h.cell k' a' }

/-- `make_shared`: the new cell has the address `next`. -/
def alloc (h : Heap) (k : Kind) (c : k.Content) : Heap :=
  { h.write k h.next c with next := h.next + 1 }

@[simp] theorem write_cell_self (h : Heap) (k : Kind) (a : Nat) (c : k.Content) :
    (h.write k a c).cell k a = c := by
  simp [write]

theorem write_cell_of_ne (h : Heap) {k k' : Kind} {a a' : Nat} (c : k.Content)
    (hne : Storage.mk k' a' ≠ ⟨k, a⟩) : (h.write k a c).cell k' a' = h.cell k' a' := by
  unfold write
  simp only
  split
  next hk =>
    subst hk
    rw [if_neg fun ha => hne (by rw [ha])]
  next => rfl

theorem write_cell_of_kind (h : Heap) {k k' : Kind} (hk : k' ≠ k) (a : Nat) (c : k.Content)
    (a' : Nat) : (h.write k a c).cell k' a' = h.cell k' a' :=
  h.write_cell_of_ne c fun he => hk (Storage.mk.inj he).1

@[simp] theorem alloc_next (h : Heap) (k : Kind) (c : k.Content) :
    (h.alloc k c).next = h.next + 1 := rfl

@[simp] theorem alloc_cell_self (h : Heap) (k : Kind) (c : k.Content) :
    (h.alloc k c).cell k h.next = c :=
  write_cell_self h k h.next c

theorem alloc_cell_of_lt (h : Heap) {k k' : Kind} {a : Nat} (c : k.Content) (ha : a < h.next) :
    (h.alloc k c).cell k' a = h.cell k' a :=
  write_cell_of_ne h c fun he => Nat.ne_of_lt ha (Storage.mk.inj he).2

end Heap

/-- The storage a handle points to. -/
def Entity.storage : Entity → Option Storage
  | .boolean a => some ⟨.boolean, a⟩
  | .integer a => some ⟨.integer, a⟩
  | .real a => some ⟨.real, a⟩
  | .string a => some ⟨.string, a⟩
  | .duration a => some ⟨.duration, a⟩
  | .array a => some ⟨.array, a⟩
  | .dictionary _ a => some ⟨.dictionary, a⟩
  | _ => none

end EzCpp.Flow
