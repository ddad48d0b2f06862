/-
# Observable resources

A resource renders its current state in the format a client asks for, or fails to, and
tells its listeners when the state changes.
-/
import Coap.Observe.Listeners
import Coap.Observe.Representation
import Coap.Service.Failure

namespace Coap

/-- The number of a resource. -/
abbrev ResourceId := Nat

/-- A resource whose state can be observed: whether notifications are confirmable unless a
change says otherwise, its current state in each format, who listens to it, and how often
it was rendered. -/
structure Resource where
  confirmable : Bool
  state : Option UInt16 → Except Failure Representation
  listeners : Listeners := .empty
  renders : Nat := 0

namespace Resource

/-- The usual type of notifications about the resource. -/
def notificationType (r : Resource) : MessageType :=
  if r.confirmable then .confirmable else .nonConfirmable

/-- The current state in the format asked for. -/
def render (r : Resource) (accept? : Option UInt16) : Except Failure Representation × Resource :=
  (r.state accept?, { r with renders := r.renders + 1 })

end Resource

end Coap
