/-
# What becomes of a message

A message on its way in passes several layers.  Each of them may hand it on, perhaps
changed, take it for itself, or answer it.  A message on its way out may fail to be sent.
-/
import Coap.Endpoint
import Coap.Identifier.MessageIds

namespace Coap

/-- What a layer does with a received message. -/
inductive Verdict
  /-- The message goes on to the next layer in this form. -/
  | forward (m : Message)
  /-- The message has been dealt with. -/
  | consume
  /-- The peer gets this answer, and the message has been dealt with. -/
  | reply (m : Message)
deriving DecidableEq

/-- Why something was not sent, or was sent in vain. -/
inductive SendFailure
  | noReply (transmissions : Nat)
  | reset
  | noResponse (waited : Duration)
  | noMessageId (cause : Exhausted)
  | noToken (cause : Exhausted)
  | notBuilt (fault : BuildFault)
  | outboxClosed
  | shutDown
deriving DecidableEq

/-- The wording of a failure to send. -/
def SendFailure.message : SendFailure → String
  | noReply n => "no remote reply after " ++ toString n ++ " attempts"
  | reset => "reset message received"
  | noResponse d => "request acknowledged but no response followed within " ++ d.text
  | noMessageId e => "no message ID available: " ++ e.message
  | noToken e => e.message
  | notBuilt f => f.message
  | outboxClosed => "outbox closed"
  | shutDown => "engine shut down"

end Coap
