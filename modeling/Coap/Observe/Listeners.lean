/-
# Listeners

Whoever wants to hear about the changes of a resource registers a listener.  A listener
collects events until they are taken out; it can be unregistered by its number, or closed
by the one who listens.  A closed listener is dropped when the next event finds it closed.

Listeners are counted without a bound.  That a counter of 64 bits comes round, and gives a number
for the second time, is not modelled.
-/
import Coap.Code
import Coap.Table

namespace Coap

/-- What a resource tells its listeners. -/
inductive ResourceEvent
  /-- The state changed; a type given here overrides that of the notifications for this
  change. -/
  | changed (type? : Option MessageType)
  /-- The resource is gone. -/
  | removed
deriving DecidableEq

/-- The number of a listener; a resource uses each number once. -/
abbrev ListenerId := Nat

/-- The listeners of a resource: the number for the next one, the registered ones in the
order of their registration, and the events that each open listener has not yet taken. -/
structure Listeners where
  nextId : ListenerId := 0
  registered : List ListenerId := []
  inboxes : Table ListenerId (List ResourceEvent) := .empty

namespace Listeners

/-- No listeners. -/
def empty : Listeners := {}

/-- Registers a listener and opens its inbox. -/
def listen (l : Listeners) : ListenerId × Listeners :=
  (l.nextId,
    { nextId := l.nextId + 1
      registered := l.registered ++ [l.nextId]
      inboxes := l.inboxes.insert l.nextId [] })

/-- Tells a listener nothing from now on. -/
def unregister (l : Listeners) (id : ListenerId) : Listeners :=
  { l with registered := l.registered.filter (· != id) }

/-- Closes the inbox of a listener; what is in it is lost. -/
def close (l : Listeners) (id : ListenerId) : Listeners :=
  { l with inboxes := l.inboxes.erase id }

/-- The number of registered listeners, closed ones that no event has found among them. -/
def count (l : Listeners) : Nat := l.registered.length

/-- Tells an event to every registered listener and drops those it finds closed. -/
def publish (l : Listeners) (event : ResourceEvent) : Listeners :=
  { l with
    registered := l.registered.filter l.inboxes.contains
    inboxes := l.inboxes.mapValues fun id events =>
      if l.registered.contains id then events ++ [event] else events }

/-- The events in the inbox of a listener, oldest first. -/
def inbox (l : Listeners) (id : ListenerId) : List ResourceEvent :=
  (l.inboxes.get? id).getD []

/-- Empties the inbox of a listener. -/
def drain (l : Listeners) (id : ListenerId) : List ResourceEvent × Listeners :=
  (l.inbox id, { l with inboxes := l.inboxes.modify id fun _ => [] })

/-- Empties all inboxes. -/
def drainAll (l : Listeners) : Listeners :=
  { l with inboxes := l.inboxes.mapValues fun _ _ => [] }

end Listeners

end Coap
