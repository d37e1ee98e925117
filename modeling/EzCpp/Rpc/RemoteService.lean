import EzCpp.Lib.Runs
import EzCpp.Rpc.Types
import Mathlib.Logic.Function.Basic

/-!
# The RPC client

A call is a run of `invoke_remote`. It enters its id and the place of its reply into the table of
queries, sends the request, waits until the send is over, and only then registers the callback that
wakes it. `poll` writes a reply whose id is in the table to its place, posts the callback as it is
at that moment, and erases the entry.

Between these steps of a call anything else may happen. The ids that `make_request_id` makes are
distinct. `parse` is `deserialize` of a `protobuf::Reply`.
-/

namespace EzCpp.Rpc.Client

open EzCpp.Lib

/-- How far a call has come. -/
inductive Phase
  | sending
  /-- the send has succeeded, the callback is not yet registered -/
  | sent
  | waiting
  /-- the send has failed; the call is over -/
  | failed
deriving DecidableEq, Repr

/-- A call, with the reply that is local to it. -/
structure Call where
  phase : Phase
  reply : RawReply

/-- `RemoteServiceBaseImpl::Query`: whose reply to write, and whom to wake. A call is known by its
id. -/
structure Query where
  reply : Option RequestId
  wake : Option RequestId
deriving DecidableEq, Repr

/-- A use of what is not there. -/
inductive Fault
  /-- an empty `std::function` called -/
  | emptyCallback
  /-- a reply written through a null pointer -/
  | nullReply
deriving DecidableEq, Repr

structure State where
  calls : RequestId → Option Call := fun _ => none
  queries : RequestId → Option Query := fun _ => none
  /-- the callbacks that are posted and have not run -/
  posted : List (Option RequestId) := []
  /-- the calls woken, each with the reply it found -/
  woken : List (RequestId × RawReply) := []
  faults : List Fault := []

inductive Event
  /-- a call gets this id and hands its request to the transport -/
  | invoke (id : RequestId)
  /-- the send of a call is over -/
  | sendDone (id : RequestId) (ok : Bool)
  | register (id : RequestId)
  /-- `poll` takes a message from the transport -/
  | receive (data : ByteArray)
  /-- the `i`-th posted callback runs -/
  | run (i : Nat)
deriving DecidableEq, Repr

namespace State

/-- `queries[id]`, which makes an entry where there is none. -/
def query (s : State) (id : RequestId) : Query := (s.queries id).getD ⟨none, none⟩

def setQuery (s : State) (id : RequestId) (q : Option Query) : State :=
  { s with queries := Function.update s.queries id q }

def setCall (s : State) (id : RequestId) (c : Call) : State :=
  { s with calls := Function.update s.calls id (some c) }

/-- `invoke`, up to `transport->send`. -/
def invoke (s : State) (id : RequestId) : State :=
  (s.setQuery id (some { s.query id with reply := some id })).setCall id ⟨.sending, .ok ⟨""⟩⟩

def setResponseCallback (s : State) (id wake : RequestId) : State :=
  s.setQuery id (some { s.query id with wake := some wake })

def writeReply (s : State) (call : RequestId) (reply : RawReply) : State :=
  { s with calls := Function.update s.calls call ((s.calls call).map fun c => { c with reply }) }

/-- One round of the loop of `poll`, on a message that is a reply. -/
def receive (s : State) (reply : Reply) : State :=
  match s.queries reply.requestId with
  | none => s
  | some ⟨none, _⟩ => { s with faults := s.faults ++ [.nullReply] }
  | some ⟨some call, wake⟩ =>
    let written := (s.writeReply call reply.payload.read).setQuery reply.requestId none
    { written with posted := s.posted ++ [wake] }

/-- A posted callback runs: `invoke_remote` goes on, and returns the reply it finds. -/
def wake (s : State) : Option RequestId → State
  | none => { s with faults := s.faults ++ [.emptyCallback] }
  | some call =>
    { s with woken := s.woken ++ ((s.calls call).map fun c => (call, c.reply)).toList }

end State

def step (parse : ByteArray → Option Reply) (s : State) : Event → Option State
  | .invoke id => if (s.calls id).isNone then some (s.invoke id) else none
  | .sendDone id ok =>
    match s.calls id with
    | some ⟨.sending, reply⟩ => some (s.setCall id ⟨if ok then .sent else .failed, reply⟩)
    | _ => none
  | .register id =>
    match s.calls id with
    | some ⟨.sent, reply⟩ => some ((s.setResponseCallback id id).setCall id ⟨.waiting, reply⟩)
    | _ => none
  | .receive data =>
    match parse data with
    | none => some s
    | some reply => some (s.receive reply)
  | .run i =>
    s.posted[i]?.map fun callback => { s with posted := s.posted.eraseIdx i }.wake callback

end EzCpp.Rpc.Client
