import EzCpp.Async.TaskPool
import EzCpp.Lib.Runs
import EzCpp.Rpc.Types
import Mathlib.Data.List.Perm.Basic

/-!
# The RPC server

`AbstractService::poll` takes the messages that have arrived, one after the other, and puts tasks
into the task pool; the tasks then run in any order, and an implementation may take any time to
return. The state keeps what the transport was given to send, and the faults: uses of an object
that is not there. The source promises nothing after one, except that `value()` of a failed result
throws, which ends the task.

A task reads a closure that is not there any more when it has ended with a value, in its wrapper
(`Async.TaskPool`), and so does the task that answers for an unknown function, which is the coroutine
of a lambda itself. Such reads are kept apart from the faults (`State.dangling`). The tasks go on here
as they would if a closure lived as long as the coroutine made with it; `Remote` lets the server end.

Transport sends succeed. `parse` is `deserialize<protobuf::Request>`.
-/

namespace EzCpp.Rpc

open EzCpp.Lib

/-- A use of what is not there. -/
inductive Fault
  /-- a member function called through a null `AbstractFunction` pointer -/
  | nullFunction
  /-- an empty `std::function` called -/
  | emptyFunction
  /-- an argument read past the end of the arguments -/
  | outOfRange
  /-- `value()` of a failed `Result` -/
  | failedResult
deriving DecidableEq, Repr

/-- How an implementation ends. The value it returns is serialized. -/
inductive Outcome
  | returned (value : ByteArray)
  | rpcError (e : Error)
  | exception
deriving DecidableEq, Repr

/-- `Function<R(Args...)>`: the deserializers of its parameters, and its implementation, if it has
one: whether it may end like this on these arguments. -/
structure Function (ν : Type) where
  name : String
  parameters : List (ByteArray → Except String ν)
  implementation : Option (List ν → Outcome → Bool)

def Function.bound {ν : Type} (f : Function ν) : Bool := f.implementation.isSome

/-- `nameSpace` is there when the schema declares `name_space`. -/
structure Schema (ν : Type) where
  nameSpace : Option String
  functions : List (Function ν)

section Functions

variable {ν : Type}

/-- `find_function`: the last field that matches. -/
def findFunction (schemas : List (Schema ν)) (nameSpace name : String) : Option (Function ν) :=
  schemas.foldl (fun result schema =>
    schema.functions.foldl (fun result f =>
      match schema.nameSpace with
      | some own => if f.name == name && nameSpace == own then some f else result
      | none => if f.name == name && nameSpace.isEmpty then some f else result) result) none

/-- What `extract_args` comes to. -/
inductive Extraction (ν : Type)
  | args (vals : List ν)
  | parsingError (what : String)
  | outOfRange

/-- `func::extract_args`: each parameter from the argument at its index, up to the first one that
does not parse. Arguments that are left over are not looked at. -/
def extractArgs : List (ByteArray → Except String ν) → List ByteArray → Extraction ν
  | [], _ => .args []
  | _ :: _, [] => .outOfRange
  | deserialize :: parameters, arg :: args =>
    match deserialize arg with
    | .error what => .parsingError what
    | .ok val =>
      match extractArgs parameters args with
      | .args vals => .args (val :: vals)
      | other => other

/-- How `invoke` goes until its implementation is called. -/
inductive Invocation (ν : Type)
  | awaits (args : List ν)
  | returns (result : Except Error RawReply)
  | faults (fault : Fault)

/-- `Function::invoke`, on the server side. -/
def Function.invoke (f : Function ν) (args : List ByteArray) : Invocation ν :=
  match extractArgs f.parameters args with
  | .outOfRange => .faults .outOfRange
  | .parsingError what => .returns (.error (Error.internalError what))
  | .args vals => if f.bound then .awaits vals else .faults .emptyFunction

/-- What `invoke` returns when its implementation has ended so; an exception that is not an `Error`
passes through it. -/
def Outcome.result : Outcome → Option (Except Error RawReply)
  | .returned value => some (.ok (.ok value))
  | .rpcError e => some (.error e)
  | .exception => none

end Functions

structure Message where
  peerId : PeerId
  payload : ByteArray
deriving DecidableEq, Repr

/-- A task of the pool, at the point where it goes on. -/
inductive Job (ν : Type)
  /-- sends the reply to a request for an unknown function -/
  | notFound (peerId : PeerId) (reply : Reply)
  /-- `exec`, at its start -/
  | exec (f : Option (Function ν)) (args : List ByteArray) (peerId : PeerId) (id : RequestId)
  /-- `exec`, in the implementation it has called -/
  | awaiting (f : Function ν) (args : List ν) (peerId : PeerId) (id : RequestId)

structure State (ν : Type) where
  inbox : List Message := []
  jobs : List (Job ν) := []
  sent : List (PeerId × Reply) := []
  faults : List Fault := []
  /-- a closure has been read that did not exist any more -/
  dangling : Bool := false

inductive Event
  /-- a message arrives at the transport -/
  | deliver (m : Message)
  | poll
  /-- the `i`-th task runs -/
  | run (i : Nat)
  /-- the implementation that the `i`-th task awaits ends -/
  | finish (i : Nat) (o : Outcome)
deriving DecidableEq, Repr

section Server

variable {ν : Type} (parse : ByteArray → Option Request) (schemas : List (Schema ν))

def functionNotFound (r : Request) : Error :=
  ⟨.functionNotFound, "Function " ++ r.nameSpace ++ "." ++ r.functionName ++ " not found"⟩

/-- The tasks for a request: with no function there are two. -/
def tasks (peerId : PeerId) (r : Request) : List (Job ν) :=
  let f := findFunction schemas r.nameSpace r.functionName
  (if f.isNone then [.notFound peerId ⟨r.id, .error (functionNotFound r)⟩] else []) ++
    [.exec f r.arguments peerId r.id]

namespace State

/-- One round of the loop of `poll`. -/
def receive (s : State ν) (m : Message) : State ν :=
  match parse m.payload with
  | none => s
  | some r => { s with jobs := s.jobs ++ tasks schemas m.peerId r }

def poll (s : State ν) : State ν := s.inbox.foldl (receive parse schemas) { s with inbox := [] }

variable {schemas}

/-- The wrapper of a task goes on when the task has ended so. -/
def taskOver (o : Async.Outcome Unit Unit) (s : State ν) : State ν :=
  { s with dangling := Async.TaskPool.readsClosure o || s.dangling }

@[simp] theorem taskOver_faults (o : Async.Outcome Unit Unit) (s : State ν) :
    (s.taskOver o).faults = s.faults := rfl

/-- The rest of `exec` once `invoke` has returned: after an error is sent, the value is still
read, which throws. -/
def reply (s : State ν) (peerId : PeerId) (id : RequestId) : Except Error RawReply → State ν
  | .error e | .ok (.error e) =>
    State.taskOver (.exception ()) { s with
      sent := s.sent ++ [(peerId, ⟨id, .error e⟩)]
      faults := s.faults ++ [.failedResult] }
  | .ok (.ok value) =>
    State.taskOver (.value ()) { s with sent := s.sent ++ [(peerId, ⟨id, .value value⟩)] }

def fault (s : State ν) (f : Fault) : State ν := { s with faults := s.faults ++ [f] }

/-- The `i`-th task is over. -/
def drop (s : State ν) (i : Nat) : State ν := { s with jobs := s.jobs.eraseIdx i }

end State

def step (s : State ν) : Event → Option (State ν)
  | .deliver m => some { s with inbox := s.inbox ++ [m] }
  | .poll => some (s.poll parse schemas)
  | .run i =>
    match s.jobs[i]? with
    | some (.notFound peerId reply) =>
      -- `this` is captured by the lambda of this task
      some { s.drop i with sent := s.sent ++ [(peerId, reply)], dangling := true }
    | some (.exec none _ _ _) => some ((s.drop i).fault .nullFunction)
    | some (.exec (some f) args peerId id) =>
      match f.invoke args with
      | .awaits vals => some { s with jobs := s.jobs.set i (.awaiting f vals peerId id) }
      | .returns result => some ((s.drop i).reply peerId id result)
      | .faults fault => some ((s.drop i).fault fault)
    | _ => none
  | .finish i o =>
    match s.jobs[i]? with
    | some (.awaiting _ _ peerId id) =>
      match o.result with
      | some result => some ((s.drop i).reply peerId id result)
      | none => some ((s.drop i).taskOver (.exception ()))
    | _ => none

end Server

end EzCpp.Rpc
