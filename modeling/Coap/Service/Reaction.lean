/-
# Reactions

What a handler does about a request, as a value: it answers, fails, hands the request over
to a resource, takes its time, or never comes back.  A service reacts to every request.
-/
import Coap.Observe.Resource
import Coap.Service.Request

namespace Coap

/-- What a handler does about a request. -/
inductive Reaction
  /-- Answers with a response. -/
  | respond (response : Message)
  /-- Reports a failure. -/
  | fail (failure : Failure)
  /-- Answers with the current state of a resource. -/
  | render (resource : ResourceId)
  /-- Gives the request up. -/
  | abandon
  /-- Keeps the request and never answers it. -/
  | hold
  /-- Waits, and then does something. -/
  | after (delay : Duration) (reaction : Reaction)

/-- A reaction, and the name of the handler that was called for it, if it has one. -/
structure Call where
  handler? : Option String := none
  reaction : Reaction

/-- What stands behind a server: it reacts to every request. -/
abbrev Service := Request → Call

end Coap
