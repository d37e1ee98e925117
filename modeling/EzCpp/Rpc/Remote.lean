import EzCpp.Rpc.RemoteService
import EzCpp.Rpc.Service
import Mathlib.Data.List.Nodup

/-!
# Remote calls

Any number of clients, one server, and a transport between them that delivers every message once,
to its addressee, and in any order. The parties are those of `RemoteService` and `Service`; here are
the two ends of a `Function<R(Args...)>`, seen with its types: `operator()` in a client, and the
implementation bound to it in the server.

Sends complete at once, so a call has registered its callback before anything else happens. After
an error is sent, `exec` still reads the value of a failed result and ends with an exception; its
task is over then, and no other one notices. After a value is sent, the task ends with a value, and
its wrapper in the task pool reads a closure that is not there any more. The source promises nothing
about the server from there on, and here the server does nothing from there on.
-/

namespace EzCpp.Rpc

open EzCpp.Lib

/-- `Serializer<T>`: which values are of the type `T`, and how they are written and read. -/
structure Serializer (ν : Type) where
  holds : ν → Prop
  serialize : ν → ByteArray
  deserialize : ByteArray → Except String ν
  inverts : ∀ {val}, holds val → deserialize (serialize val) = .ok val

/-- `Serializer<protobuf::Request>` and `Serializer<protobuf::Reply>`. -/
structure Protobuf where
  serializeRequest : Request → ByteArray
  deserializeRequest : ByteArray → Option Request
  serializeReply : Reply → ByteArray
  deserializeReply : ByteArray → Option Reply
  inverts_request : ∀ r, deserializeRequest (serializeRequest r) = some r
  inverts_reply : ∀ r, deserializeReply (serializeReply r) = some r

/-- What a call comes to: a value or an `Error`, or nothing, if it ends with another exception. -/
abbrev Ending (ν : Type) := Option (Except Error ν)

namespace Remote

variable {ν : Type}

/-- `Function<R(Args...)>` with the types `Args...` and `R`. An implementation says whether it may
end like this on these arguments. -/
structure Function (ν : Type) where
  name : String
  args : List (Serializer ν)
  result : Serializer ν
  implementation : Option (List ν → Ending ν → Bool)
  returns : ∀ {impl vals val}, impl ∈ implementation → impl vals (some (.ok val)) = true →
    result.holds val

namespace Function

variable (f : Function ν)

def MayEnd (vals : List ν) (ending : Ending ν) : Prop :=
  ∃ impl ∈ f.implementation, impl vals ending = true

/-- How `invoke` sees an implementation end. -/
def outcome : Ending ν → Outcome
  | some (.ok val) => .returned (f.result.serialize val)
  | some (.error e) => .rpcError e
  | none => .exception

/-- The ending that `invoke` sees as this outcome, if there is one. -/
def ending : Outcome → Option (Ending ν)
  | .returned value =>
    match f.result.deserialize value with
    | .ok val => if f.result.serialize val = value then some (some (.ok val)) else none
    | .error _ => none
  | .rpcError e => some (some (.error e))
  | .exception => some none

/-- The function as the server calls it. -/
def served : Rpc.Function ν where
  name := f.name
  parameters := f.args.map Serializer.deserialize
  implementation := f.implementation.map fun impl vals o => (f.ending o).any (impl vals)

/-- `func::serialize_args` -/
def serializeArgs (vals : List ν) : List ByteArray := f.args.zipWith Serializer.serialize vals

/-- `func::get_return_value`: `value()` throws what `deserialize` fails with. -/
def getReturnValue : RawReply → Ending ν
  | .ok value =>
    match f.result.deserialize value with
    | .ok val => some (.ok val)
    | .error _ => none
  | .error e => some (.error e)

end Function

structure Schema (ν : Type) where
  nameSpace : Option String
  functions : List (Function ν)

namespace Schema

def served (schema : Schema ν) : Rpc.Schema ν where
  nameSpace := schema.nameSpace
  functions := schema.functions.map Function.served

/-- `name_space()` of its functions: `RemoteService` sets the one that the schema declares. -/
def ownNameSpace (schema : Schema ν) : String := schema.nameSpace.getD ""

/-- The namespaces and names that requests know its functions by. -/
def names (schema : Schema ν) : List (String × String) :=
  schema.functions.map fun f => (schema.ownNameSpace, f.name)

end Schema

/-- A call of a function of one of the schemas, with arguments of the right types. -/
structure Call (schemas : List (Schema ν)) where
  schema : Schema ν
  function : Function ν
  args : List ν
  schema_mem : schema ∈ schemas
  function_mem : function ∈ schema.functions
  args_hold : List.Forall₂ Serializer.holds function.args args

/-- `Function::operator()`, up to the request it sends. -/
def Call.request {schemas : List (Schema ν)} (c : Call schemas) (id : RequestId) : Request where
  id := id
  functionName := c.function.name
  nameSpace := c.schema.ownNameSpace
  arguments := c.function.serializeArgs c.args

/-- An implementation that was run, for whom, and how it ended. -/
structure Run (ν : Type) where
  peerId : PeerId
  id : RequestId
  function : Rpc.Function ν
  args : List ν
  outcome : Outcome

structure State (ν : Type) where
  server : Rpc.State ν := {}
  clients : PeerId → Client.State := fun _ => {}
  /-- the messages on their way to the server -/
  requests : List Message := []
  /-- the messages on their way to the clients -/
  replies : List (PeerId × ByteArray) := []
  ended : List (Run ν) := []

inductive Event (schemas : List (Schema ν))
  /-- a client calls a function, and its request gets this id -/
  | call (peerId : PeerId) (id : RequestId) (c : Call schemas)
  /-- a request arrives at the server -/
  | arrive (m : Message)
  | poll
  /-- the `i`-th task of the server runs -/
  | run (i : Nat)
  /-- the implementation that the `i`-th task awaits ends -/
  | finish (i : Nat) (o : Outcome)
  /-- a client takes a reply -/
  | receive (peerId : PeerId) (data : ByteArray)
  /-- the `i`-th callback that a client has posted runs -/
  | wake (peerId : PeerId) (i : Nat)

def Event.isCall {schemas : List (Schema ν)} : Event schemas → Bool
  | .call _ _ _ => true
  | _ => false

section Step

variable (pb : Protobuf) (schemas : List (Schema ν))

/-- Once a closure has been read that did not exist, nothing is known of the server any more: it may
have come to its end. -/
def serverStep (s : Rpc.State ν) (e : Rpc.Event) : Option (Rpc.State ν) :=
  if s.dangling then none else Rpc.step pb.deserializeRequest (schemas.map Schema.served) s e

variable {pb schemas} in
theorem serverStep_eq_some {s t : Rpc.State ν} {e : Rpc.Event} :
    serverStep pb schemas s e = some t ↔ s.dangling = false ∧
      Rpc.step pb.deserializeRequest (schemas.map Schema.served) s e = some t := by
  unfold serverStep
  cases s.dangling <;> simp

variable {pb schemas} in
theorem serverStep_of_live {s t : Rpc.State ν} {e : Rpc.Event} (hlive : s.dangling = false)
    (h : Rpc.step pb.deserializeRequest (schemas.map Schema.served) s e = some t) :
    serverStep pb schemas s e = some t := serverStep_eq_some.mpr ⟨hlive, h⟩

def clientStep : Client.State → Client.Event → Option Client.State :=
  Client.step pb.deserializeReply

namespace State

variable (s : State ν)

/-- The server goes on, and what it sends is on its way. -/
def serve (server : Rpc.State ν) : State ν :=
  let sent := server.sent.drop s.server.sent.length
  { s with
    server
    replies := s.replies ++ sent.map fun p => (p.1, pb.serializeReply p.2) }

def setClient (peerId : PeerId) (client : Client.State) : State ν :=
  { s with clients := Function.update s.clients peerId client }

end State

variable {schemas}

def step (s : State ν) : Event schemas → Option (State ν)
  | .call peerId id c =>
    (runs (clientStep pb) (s.clients peerId) [.invoke id, .sendDone id true, .register id]).map
      fun client =>
        let request := pb.serializeRequest (c.request id)
        { s.setClient peerId client with requests := s.requests ++ [⟨peerId, request⟩] }
  | .arrive m =>
    if m ∈ s.requests then
      (serverStep pb schemas s.server (.deliver m)).map fun server =>
        { s with server, requests := s.requests.erase m }
    else none
  | .poll => (serverStep pb schemas s.server .poll).map (s.serve pb)
  | .run i => (serverStep pb schemas s.server (.run i)).map (s.serve pb)
  | .finish i o =>
    match s.server.jobs[i]? with
    | some (.awaiting f args peerId id) =>
      if f.implementation.any fun impl => impl args o then
        (serverStep pb schemas s.server (.finish i o)).map fun server =>
          { s.serve pb server with ended := s.ended ++ [⟨peerId, id, f, args, o⟩] }
      else none
    | _ => none
  | .receive peerId data =>
    if (peerId, data) ∈ s.replies then
      (clientStep pb (s.clients peerId) (.receive data)).map fun client =>
        { s.setClient peerId client with replies := s.replies.erase (peerId, data) }
    else none
  | .wake peerId i =>
    (clientStep pb (s.clients peerId) (.run i)).map (s.setClient peerId)

end Step

/-! ## One function -/

namespace Function

variable {f : Function ν} {vals : List ν} {ending : Ending ν} {o : Outcome}

theorem ending_outcome (h : f.MayEnd vals ending) : f.ending (f.outcome ending) = some ending := by
  obtain ⟨impl, himpl, hval⟩ := h
  match ending with
  | some (.ok val) =>
    have := f.result.inverts (f.returns himpl hval)
    simp [Function.ending, Function.outcome, this]
  | some (.error e) => rfl
  | none => rfl

theorem outcome_of_ending (h : f.ending o = some ending) : o = f.outcome ending := by
  cases o with
  | returned value =>
    simp only [Function.ending] at h
    split at h
    next val hval =>
      split at h
      next hser =>
        cases h
        rw [← hser]
        rfl
      next => cases h
    next => cases h
  | rpcError e => cases h; rfl
  | exception => cases h; rfl

/-- The server's implementation ends as the function's own does. -/
theorem served_ends_iff :
    (f.served.implementation.any fun impl => impl vals o) = true ↔
      ∃ ending, f.MayEnd vals ending ∧ o = f.outcome ending := by
  simp only [served, Option.any_eq_true, Option.map_eq_some_iff]
  constructor
  · rintro ⟨_, ⟨impl, himpl, rfl⟩, h⟩
    obtain ⟨ending, hending, hval⟩ := Option.any_eq_true _ _ |>.mp h
    exact ⟨ending, ⟨impl, himpl, hval⟩, outcome_of_ending hending⟩
  · rintro ⟨ending, hmay, rfl⟩
    have hending := ending_outcome hmay
    obtain ⟨impl, himpl, hval⟩ := hmay
    exact ⟨_, ⟨impl, himpl, rfl⟩, by simpa [hending] using hval⟩

/-- The payload of the reply to a call that ended so. -/
def payload (f : Function ν) : Except Error ν → Payload
  | .ok val => .value (f.result.serialize val)
  | .error e => .error e

/-- What the client reads is how the implementation ended. -/
theorem getReturnValue_payload {result : Except Error ν} (h : f.MayEnd vals (some result)) :
    f.getReturnValue (f.payload result).read = some result := by
  obtain ⟨impl, himpl, hval⟩ := h
  cases result with
  | ok val => simp [getReturnValue, payload, Payload.read, f.result.inverts (f.returns himpl hval)]
  | error e => rfl

/-- The server extracts the arguments that the client has packed. -/
theorem extractArgs_serializeArgs (h : List.Forall₂ Serializer.holds f.args vals) :
    extractArgs f.served.parameters (f.serializeArgs vals) = .args vals := by
  simp only [served, serializeArgs]
  generalize f.args = types at h
  induction h with
  | nil => rfl
  | cons hval _ ih => simp [extractArgs, Serializer.inverts _ hval, ih]

theorem served_invoke (h : List.Forall₂ Serializer.holds f.args vals) :
    f.served.invoke (f.serializeArgs vals) =
      if f.served.bound then .awaits vals else .faults .emptyFunction := by
  rw [Rpc.Function.invoke, extractArgs_serializeArgs h]

end Function

/-! ## Lookup -/

/-- No two functions have the same namespace and name. -/
def Distinct (schemas : List (Schema ν)) : Prop := (schemas.flatMap Schema.names).Nodup

theorem foldl_last {α β : Type} {p : α → Bool} {g : α → β} {l : List α} {a : α} (ha : a ∈ l)
    (hp : p a = true) (hu : ∀ b ∈ l, p b = true → g b = g a) (init : Option β) :
    l.foldl (fun result b => if p b then some (g b) else result) init = some (g a) := by
  induction l using List.reverseRecOn with
  | nil => cases ha
  | append_singleton l b ih =>
    rw [List.foldl_append, List.foldl_cons, List.foldl_nil]
    by_cases hb : p b = true
    · rw [if_pos hb, hu b (by simp) hb]
    · rw [if_neg hb]
      refine ih ?_ fun b' hb' => hu b' (List.mem_append_left _ hb')
      rcases List.mem_append.mp ha with ha | ha
      · exact ha
      · cases List.mem_singleton.mp ha
        exact absurd hp hb

/-- **A request finds the function it was made for**, when the names are distinct. -/
theorem findFunction_served {schemas : List (Schema ν)} {schema : Schema ν} {f : Function ν}
    (hd : Distinct schemas) (hs : schema ∈ schemas) (hf : f ∈ schema.functions) :
    findFunction (schemas.map Schema.served) schema.ownNameSpace f.name = some f.served := by
  let fields := schemas.flatMap fun schema => schema.functions.map fun f => (schema, f)
  let named (p : Schema ν × Function ν) := (p.1.ownNameSpace, p.2.name)
  have hnodup : (fields.map named).Nodup := by
    simp only [fields, List.map_flatMap, List.map_map]
    exact hd
  have hmem : (schema, f) ∈ fields := by simpa [fields] using ⟨hs, hf⟩
  have hlast := foldl_last (p := fun p => named p = (schema.ownNameSpace, f.name))
    (g := fun p => p.2.served) hmem (by simp [named])
    (fun p hp heq => by
      rw [List.inj_on_of_nodup_map hnodup hp hmem (of_decide_eq_true heq)]) none
  rw [← hlast]
  simp only [fields, List.foldl_flatMap, List.foldl_map, findFunction]
  congr 1
  funext result own
  simp only [Schema.served, List.foldl_map]
  congr 1
  funext result g
  cases hns : own.nameSpace with
  | none =>
    have : (g.served.name == f.name && schema.ownNameSpace.isEmpty) =
        decide (named (own, g) = (schema.ownNameSpace, f.name)) := by
      rw [Bool.eq_iff_iff]
      simp only [named, Schema.ownNameSpace, hns, Function.served, Option.getD_none,
        Bool.and_eq_true, beq_iff_eq, String.isEmpty_iff, decide_eq_true_eq, Prod.mk.injEq]
      grind
    simp only [this]
  | some ns =>
    have : (g.served.name == f.name && schema.ownNameSpace == ns) =
        decide (named (own, g) = (schema.ownNameSpace, f.name)) := by
      rw [Bool.eq_iff_iff]
      simp only [named, Schema.ownNameSpace, hns, Function.served, Option.getD_some,
        Bool.and_eq_true, beq_iff_eq, decide_eq_true_eq, Prod.mk.injEq]
      grind
    simp only [this]

end Remote

end EzCpp.Rpc
