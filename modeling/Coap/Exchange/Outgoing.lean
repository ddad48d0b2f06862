/-
# Exchanges this node opens

A confirmable message opens an exchange with its peer.  It is repeated, with waits that
double, until the peer acknowledges or rejects it, until the exchange is cancelled, or until
it has been repeated often enough; each exchange has at most one outcome.  This layer also
gives confirmable and non-confirmable messages their IDs.

What happens at the end of a wait is one step here (`fireChosen`): the exchange is looked up, and
its message is repeated or its failure told.  Where every exchange has a task of its own for this,
it is assumed that nothing happens between the look-up and what follows from it, and that a task
is stopped before its ID is given to another message, even if its wait ends at that very moment.
-/
import Coap.Clock
import Coap.Config.Transmission
import Coap.Exchange.Verdict

namespace Coap

/-- How an exchange ended. -/
inductive ExchangeOutcome
  | acknowledged
  | reset
  | timedOut (transmissions : Nat)
deriving DecidableEq

/-- The name of an outcome in diagnostics. -/
def ExchangeOutcome.name : ExchangeOutcome → String
  | acknowledged => "Acknowledged"
  | reset => "Reset"
  | timedOut n => "TimedOut(" ++ toString n ++ ")"

/-- The outcome of an exchange that was opened with a message. -/
structure ExchangeEvent where
  peer : Endpoint
  token : Token
  id : MessageId
  outcome : ExchangeOutcome
deriving DecidableEq

/-- The failure an outcome amounts to, if it is one. -/
def ExchangeOutcome.failure? : ExchangeOutcome → Option SendFailure
  | acknowledged => none
  | reset => some .reset
  | timedOut n => some (.noReply n)

/-- An open exchange: the message that opened it, how often it was repeated, the wait that
is running and when it ends. -/
structure OpenExchange where
  message : Message
  repeated : Nat
  wait : Duration
  due : Instant
deriving DecidableEq

namespace OpenExchange

/-- An exchange after the end of its wait: it goes on, with its message repeated once more and
a wait that is twice as long, unless it was repeated often enough or there is no outbox. -/
def renew? (policy : Transmission) (outboxOpen : Bool) (now : Instant)
    (x : OpenExchange) : Option OpenExchange :=
  if x.repeated < policy.maxRetransmit ∧ outboxOpen then
    let wait := x.wait * 2
    some { x with repeated := x.repeated + 1, wait, due := (now + wait).tick }
  else none

/-- The failure of an exchange after the end of its wait, if it was repeated often enough. -/
def timeout? (policy : Transmission) (key : MessageKey) (x : OpenExchange) :
    Option ExchangeEvent :=
  if x.repeated < policy.maxRetransmit then none
  else some ⟨key.peer, x.message.token, key.id, .timedOut (policy.maxRetransmit + 1)⟩

end OpenExchange

/-- The exchanges opened by this node.  The first wait of each is drawn as a share of the
permitted range. -/
structure Outgoing where
  policy : Transmission
  ids : MessageIdPool
  shares : Draws Rat
  exchanges : Table MessageKey OpenExchange := .empty
  nextPurge : Instant

namespace Outgoing

/-- How often the message IDs are looked through for peers to forget. -/
def purgeInterval : Duration := Duration.ofSeconds 10

/-- No exchanges, at the start of the clock. -/
def start (policy : Transmission) (ids : MessageIdPool) (shares : Draws Rat) : Outgoing :=
  { policy, ids, shares, nextPurge := purgeInterval }

/-- The first wait at a share of the permitted range. -/
def firstWait (policy : Transmission) (share : Rat) : Duration :=
  policy.ackTimeout +
    (((policy.maxAckTimeout - policy.ackTimeout : Nat) : Rat) * share).floor.toNat

/-- The number of open exchanges. -/
def openExchanges (s : Outgoing) : Nat := s.exchanges.size

/-- Gives up every exchange with a peer that was opened under a token. -/
def cancel (s : Outgoing) (peer : Endpoint) (token : Token) : Outgoing :=
  { s with
    exchanges := s.exchanges.filter fun key x => !(key.peer == peer && x.message.token == token) }

/-- A received message.  Acknowledgements and resets close the exchange of their ID; a
request must not be sent as either and is dropped.  A reset without an exchange may be meant
for a notification and goes on. -/
def receive (s : Outgoing) (peer : Endpoint) (m : Message) :
    Verdict × Option ExchangeEvent × Outgoing :=
  let close (outcome : ExchangeOutcome) (unmatched : Verdict) :=
    if m.isRequest then (.consume, none, s)
    else
      let key : MessageKey := ⟨peer, m.id⟩
      match s.exchanges.get? key with
      | none => (unmatched, none, s)
      | some x =>
        (if m.isEmpty then .consume else .forward m,
          some ⟨peer, x.message.token, m.id, outcome⟩,
          { s with exchanges := s.exchanges.erase key })
  match m.type with
  | .acknowledgement => close .acknowledged .consume
  | .reset => close .reset (.forward m)
  | _ => (.forward m, none, s)

/-- A message to be sent, with the ID it gets; a confirmable one opens an exchange. -/
def send (s : Outgoing) (now : Instant) (peer : Endpoint) (m : Message) :
    Except SendFailure Message × Outgoing :=
  let numbered :=
    let (id, ids) := s.ids.issue now peer
    let s := { s with ids }
    match id with
    | .error e => (.error (.noMessageId e), s)
    | .ok id => (.ok { m with id }, s)
  match m.type, numbered with
  | .acknowledgement, _ => (.ok m, s)
  | .reset, _ => (.ok m, s)
  | .nonConfirmable, result => result
  | .confirmable, (.error e, s) => (.error e, s)
  | .confirmable, (.ok m, s) =>
    let (share, shares) := s.shares.next
    let wait := firstWait s.policy share
    let x : OpenExchange := { message := m, repeated := 0, wait, due := (now + wait).tick }
    (.ok m, { s with shares, exchanges := s.exchanges.insert ⟨peer, m.id⟩ x })

/-- What this layer does by itself: messages repeated and exchanges that have failed. -/
structure Fired where
  sent : List (Endpoint × Message) := []
  events : List ExchangeEvent := []

/-- Deals with those of the chosen exchanges whose waits have ended. -/
def fireChosen (s : Outgoing) (chosen : MessageKey → Bool) (outboxOpen : Bool) (now : Instant) :
    Fired × Outgoing :=
  let due := s.exchanges.entries.filter fun e => chosen e.1 ∧ e.2.due ≤ now
  let renew := OpenExchange.renew? s.policy outboxOpen now
  ({ sent := due.filterMap fun e => (renew e.2).map fun x => (e.1.peer, x.message)
     events := due.filterMap fun e => e.2.timeout? s.policy e.1 },
    { s with
      exchanges := s.exchanges.filterMapValues fun key x =>
        if chosen key ∧ x.due ≤ now then renew x else some x })

/-- Deals with all exchanges whose waits have ended. -/
def fireDue (s : Outgoing) (outboxOpen : Bool) (now : Instant) : Fired × Outgoing :=
  s.fireChosen (fun _ => true) outboxOpen now

/-- Looks through the message IDs if it is time to. -/
def purgeIds (s : Outgoing) (now : Instant) : Outgoing :=
  if s.nextPurge ≤ now then
    { s with ids := s.ids.purge now, nextPurge := now + purgeInterval }
  else s

/-- Does everything that is due. -/
def fire (s : Outgoing) (outboxOpen : Bool) (now : Instant) : Fired × Outgoing :=
  (s.purgeIds now).fireDue outboxOpen now

/-- When something is due next. -/
def nextDue (s : Outgoing) : Instant :=
  Clock.earlier s.nextPurge (Clock.earliest? (s.exchanges.entries.map (·.2.due)))

end Outgoing

end Coap
