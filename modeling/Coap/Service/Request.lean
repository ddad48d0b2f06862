/-
# Requests and their responses

A handler sees a request with its whole body, the peer it came from and the part of the
path that its route did not match.  It starts from a response that already has the usual
success status for the method.
-/
import Coap.Endpoint
import Coap.Message.Typed

namespace Coap

/-- A request as a handler sees it. -/
structure Request where
  message : Message
  peer : Endpoint
  unmatched : List String := []
deriving DecidableEq

/-- The usual success status of a method. -/
def Method.successStatus : Method → Status
  | get => .content
  | post => .created
  | put => .changed
  | delete => .deleted

namespace Message

/-- The success status for a message: that of its method, and content without one. -/
def successStatus (m : Message) : Status :=
  match m.method? with
  | some method => method.successStatus
  | none => .content

/-- The response to start from: the usual status, and the last block of an upload echoed
back. -/
def successReply (m : Message) : Message :=
  let reply := m.replyTo m.successStatus
  match m.block1? with
  | some block => (reply.setBlock1 block).message
  | none => reply

end Message

end Coap
