/-
# What can happen to a node

A message is received, time passes, a request is submitted or withdrawn, a resource changes.
Some of these fall into parts that need not follow each other at once: an exchange is concluded
after the message that ends it was dealt with, and what is due at one time happens in some
order.  The parts are events of their own, so that a history may have them in any order.

How the handlers answer a request may depend on anything they have seen before.  At one event they
behave in one way, which the node has as its service; between events that may change, and this is
an event too.
-/
import Coap.Engine.Serving

namespace Coap.Engine

/-! ## Parts of what happens -/

/-- A received message is dealt with; if it ends an exchange, that is left to be concluded. -/
def absorb (e : Engine) (peer : Endpoint) (m : Message) : Engine :=
  let (verdict, _, outgoing) := e.outgoing.receive peer m
  let e := { e with outgoing }
  match verdict with
  | .forward m => e.receiveReliably peer m
  | .consume => e
  | .reply reply => e.transmit peer reply

theorem receive_eq_absorb (e : Engine) (peer : Endpoint) (m : Message) :
    e.receive peer m =
    ((e.absorb peer m).concludeAll (e.outgoing.receive peer m).2.1.toList).settle := rfl

/-- The messages whose waits have ended are repeated; exchanges that have failed are left to
be concluded. -/
def repeatDue (now : Instant) (e : Engine) : Engine :=
  { e with outgoing := (e.outgoing.fire e.outboxOpen now).2 }.transmitAll
    (e.outgoing.fire e.outboxOpen now).1.sent

/-- The acknowledgements that are due are sent. -/
def sweepDue (now : Instant) (e : Engine) : Engine :=
  if e.incoming.nextSweep ≤ now then
    { e with incoming := (e.incoming.sweep now).2 }.transmitAll (e.incoming.sweep now).1
  else e

/-- The handlers whose waits are over go on. -/
def resumeDue (now : Instant) (e : Engine) : Engine :=
  { e with delayed := e.delayed.filter (now < ·.due) }.resume (e.delayed.filter (·.due ≤ now))

/-- The requests whose answers did not come in time are given up. -/
def expireDue (now : Instant) (e : Engine) : Engine :=
  { e with deadlines := e.deadlines.filter (now < ·.due) }.expireAll
    (e.deadlines.filter (·.due ≤ now))

/-- What is due at a time happens in four parts, with the failed exchanges concluded after
the first. -/
theorem fire_eq (now : Instant) (e : Engine) :
    fire now e = (expireDue now (resumeDue now (sweepDue now
      ((repeatDue now { e with now }).concludeAll
        (e.outgoing.fire e.outboxOpen now).1.events)))).settle := rfl

/-- The node with handlers that behave in the given way. -/
def under (e : Engine) (service : Service) : Engine := { e with service }

/-! ## Histories -/

/-- What can happen to a node.  Some of these events are parts of others, so that their order
is left open. -/
inductive Event
  | submit (peer : Endpoint) (m : Message) (requester : Requester)
  | cancel (key : ConversationKey)
  | handle (peer : Endpoint) (decoded : Except Datagram.DecodeFault Message)
  /-- A message is dealt with, and the exchange it ends is concluded another time. -/
  | absorb (peer : Endpoint) (m : Message)
  | conclude (event : ExchangeEvent)
  | repeatDue (now : Instant)
  | sweepDue (now : Instant)
  | resumeDue (now : Instant)
  | expire (key : ConversationKey) (number : Nat)
  /-- Those who waited for a result and have it withdraw their requests. -/
  | settle
  | announce (id : ResourceId) (event : ResourceEvent)
  | setState (id : ResourceId) (state : Option UInt16 → Except Failure Representation)
  | closeOutbox
  /-- From here on the handlers behave in the given way. -/
  | serve (service : Service)
  /-- The clock goes on to a time, and everything that is due by then happens. -/
  | fire (now : Instant)
  /-- The clock goes on to a time. -/
  | pass (now : Instant)

/-- The node after an event. -/
def step (e : Engine) : Event → Engine
  | .submit peer m requester => (e.submit peer m requester).2
  | .cancel key => e.cancel key
  | .handle peer decoded => e.handle peer decoded
  | .absorb peer m => e.absorb peer m
  | .conclude event => e.conclude event
  | .repeatDue now => repeatDue now e
  | .sweepDue now => sweepDue now e
  | .resumeDue now => resumeDue now e
  | .expire key number => e.expire key number
  | .settle => e.settle
  | .announce id event => e.announce id event
  | .setState id state => e.setState id state
  | .closeOutbox => { e with outboxOpen := false }
  | .serve service => e.under service
  | .fire now => fire now e
  | .pass now => { e with now }

/-- The node after a history. -/
def run (e : Engine) : List Event → Engine
  | [] => e
  | event :: rest => run (e.step event) rest

theorem run_append (e : Engine) (before after : List Event) :
    e.run (before ++ after) = (e.run before).run after := by
  induction before generalizing e with
  | nil => rfl
  | cons event rest ih => exact ih _

end Coap.Engine
