/-
# Notifications

A notification is a response that a client did not ask for again.  One that reports a
failure, or that the resource is gone, has no sequence number and ends the observation.
-/
import Coap.Endpoint
import Coap.Observe.Representation
import Coap.Service.Failure

namespace Coap

/-- A notification on its way to an observer. -/
structure Notification where
  peer : Endpoint
  message : Message
deriving DecidableEq

namespace Notification

/-- A response of the given type that carries a token. -/
def blank (type : MessageType) (status : Status) (token : Token) : Edit :=
  (Message.response type status).setToken token

/-- The notification of a state: just its validators if the observer holds it already, and
all of it otherwise. -/
def ofState (type : MessageType) (token : Token) (number : SequenceNumber) (r : Representation)
    (etags : List Bytes) : Edit :=
  if r.matchesAny etags then
    ((blank type .valid token).andThen (·.setObserve number)).andThen r.writeValidators
  else ((blank type .content token).andThen (·.setObserve number)).andThen r.write

/-- The notification of a failure to render the state. -/
def ofFailure (type : MessageType) (token : Token) (f : Failure) : Edit :=
  (blank type f.status token).andThen (·.setPayload (Bytes.ofString f.message))

/-- The notification that the resource is gone. -/
def ofRemoval (type : MessageType) (token : Token) : Edit := blank type .notFound token

end Notification

end Coap
