/-!
# Messages of the RPC library

Strong types over strings, the errors of `Types.hpp`, and the protobuf messages. A `Reply` is a
protobuf `oneof`: its payload may also be absent, which a client reads as an error all of whose
fields have their default values.
-/

namespace EzCpp.Rpc

structure ByteArray where
  value : String
deriving DecidableEq, Repr

structure PeerId where
  value : String
deriving DecidableEq, Repr

structure RequestId where
  value : String
deriving DecidableEq, Repr

namespace Error

inductive Code
  | timeout
  | failedToSendRequest
  | functionNotFound
  | internalError
deriving DecidableEq, Repr

end Error

structure Error where
  code : Error.Code
  what : String
deriving DecidableEq, Repr

def Error.internalError (message : String) : Error := ⟨.internalError, message⟩

/-- `Result<ByteArray, rpc::Error>` -/
abbrev RawReply := Except Error ByteArray

structure Request where
  id : RequestId
  functionName : String
  nameSpace : String
  arguments : List ByteArray
deriving DecidableEq, Repr

inductive Payload
  | absent
  | value (bytes : ByteArray)
  | error (e : Error)
deriving DecidableEq, Repr

structure Reply where
  requestId : RequestId
  payload : Payload
deriving DecidableEq, Repr

/-- How a client reads a payload: `has_value`, else the error. -/
def Payload.read : Payload → RawReply
  | .value bytes => .ok bytes
  | .error e => .error e
  | .absent => .error ⟨.timeout, ""⟩

end EzCpp.Rpc
