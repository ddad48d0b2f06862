/-
# The engine

The engine is a node of the protocol: it serves requests and sends requests of its own.  Its
state is that of its layers, together with the requests it waits for answers to and those it
is asked to answer.  Everything that can be seen of it, the messages it sends and what it
reports to those who sent requests through it, is written to a log with its time.

Requests are numbered without a bound, like listeners.  That a counter of 64 bits comes round is not
modelled.
-/
import Coap.Exchange.Incoming
import Coap.Exchange.Outgoing
import Coap.Identifier.Tokens
import Coap.Observe.Subscriptions
import Coap.Service.Reaction
import Coap.Transfer

namespace Coap

/-! ## What can be seen -/

/-- How the sender of a request wants to hear of it.  All hear of responses and failures. -/
inductive Interest
  /-- Tells a reset and a missing reply apart from other failures. -/
  | full
  /-- Hears of a reset or a missing reply as a failure. -/
  | plain
  /-- Waits for the first result, and withdraws the request when it has it. -/
  | awaiting
deriving DecidableEq

/-- The sender of a request. -/
structure Requester where
  name : String
  interest : Interest
deriving DecidableEq

/-- What the sender of a request is told. -/
inductive Report
  | response (m : Message)
  | reset
  | timeout (transmissions : Nat)
  | failed (failure : SendFailure)
  /-- The one result of a request that was waited for. -/
  | result (outcome : Except SendFailure Message)

/-- Something that can be seen of the engine. -/
inductive Occurrence
  | sent (peer : Endpoint) (m : Message)
  | reported (requester : String) (peer : Endpoint) (report : Report)
  | called (handler : String)

/-- An occurrence and its time. -/
structure LogEntry where
  time : Instant
  occurrence : Occurrence

/-- What was sent, and when. -/
def LogEntry.sent? (x : LogEntry) : Option (Instant × Endpoint × Message) :=
  match x.occurrence with
  | .sent peer m => some (x.time, peer, m)
  | _ => none

/-- Whether a handler was called. -/
def LogEntry.isCall (x : LogEntry) : Bool :=
  match x.occurrence with
  | .called _ => true
  | _ => false

/-! ## The state -/

/-- A request that was sent and may still be answered: a number that tells it apart from
other requests under its token, who sent it, the latest notification and when it came, and
whether a requester that waits has its result. -/
structure Conversation where
  number : Nat
  requester : Requester
  latest? : Option (SequenceNumber × Instant) := none
  settled : Bool := false

/-- A request whose handler takes its time. -/
structure Delayed where
  due : Instant
  peer : Endpoint
  request : Message
  reaction : Reaction

/-- The time by which an acknowledged request has to be answered. -/
structure Deadline where
  due : Instant
  key : ConversationKey
  number : Nat

/-- The state of a node. -/
structure Engine where
  now : Instant := 0
  service : Service
  outgoing : Outgoing
  incoming : Incoming
  transfers : Transfers
  subscriptions : Subscriptions
  tokens : TokenPool
  conversations : Table ConversationKey Conversation := .empty
  nextNumber : Nat := 0
  responseTimeout : Duration
  deadlines : List Deadline := []
  delayed : List Delayed := []
  /-- Requests that were waited for and have their result, but have not been withdrawn. -/
  withdrawing : List ConversationKey := []
  outboxOpen : Bool := true
  /-- What could be seen so far, the latest first. -/
  log : List LogEntry := []

/-- The sources of everything an engine chooses at random. -/
structure Chances where
  firstIds : Draws MessageId
  firstNumbers : Draws SequenceNumber
  tokenBytes : Draws UInt8
  waitShares : Draws Rat

namespace Engine

/-- A node at the start of the clock, with the given resources attached at their paths. -/
def start (c : Config) (chances : Chances) (service : Service)
    (resources : List (String × Resource)) : Engine :=
  let none : Subscriptions := { firstNumbers := chances.firstNumbers }
  { service
    outgoing := .start c.transmission
      { lifetime := c.exchangeLifetime, firstIds := chances.firstIds } chances.waitShares
    incoming := .start c
    transfers := .start c
    subscriptions := none.attachAll resources
    tokens := .make c.tokenLength chances.tokenBytes
    responseTimeout := c.exchangeLifetime }

/-- Writes to the log. -/
def note (e : Engine) (o : Occurrence) : Engine := { e with log := ⟨e.now, o⟩ :: e.log }

/-- What could be seen so far, in order. -/
def history (e : Engine) : List LogEntry := e.log.reverse

/-- The number of requests that may still be answered. -/
def openConversations (e : Engine) : Nat := e.conversations.size

/-! ## Sending

A message leaves through some or all of the layers, in the reverse of the order in which
received messages pass them. -/

/-- Puts a message into the outbox, if that is still there. -/
def transmit (e : Engine) (peer : Endpoint) (m : Message) : Engine :=
  if e.outboxOpen then e.note (.sent peer m) else e

/-- Puts messages into the outbox. -/
def transmitAll (e : Engine) (messages : List (Endpoint × Message)) : Engine :=
  messages.foldl (fun e (peer, m) => e.transmit peer m) e

/-- Sends a message with an ID of its own, and answers with the ID. -/
def sendNumbered (e : Engine) (peer : Endpoint) (m : Message) :
    Except SendFailure MessageId × Engine :=
  let (result, outgoing) := e.outgoing.send e.now peer m
  let e := { e with outgoing }
  match result with
  | .error failure => (.error failure, e)
  | .ok m => if e.outboxOpen then (.ok m.id, e.transmit peer m) else (.error .outboxClosed, e)

/-- Sends a message, on an acknowledgement that is still due if it may. -/
def sendReliably (e : Engine) (peer : Endpoint) (m : Message) :
    Except SendFailure MessageId × Engine :=
  let (m, incoming) := e.incoming.send peer m
  { e with incoming }.sendNumbered peer m

/-- Sends a message, or its first block if it is too large. -/
def sendInBlocks (e : Engine) (peer : Endpoint) (m : Message) (request? : Option Message) :
    Except SendFailure MessageId × Engine :=
  let (result, transfers) := e.transfers.send e.now peer m request?
  let e := { e with transfers }
  match result with
  | .error failure => (.error failure, e)
  | .ok m => e.sendReliably peer m

/-- Sends a message through all layers. -/
def sendThrough (e : Engine) (peer : Endpoint) (m : Message) (request? : Option Message) :
    Except SendFailure MessageId × Engine :=
  let (result, subscriptions) := e.subscriptions.send peer m request?
  let e := { e with subscriptions }
  match result with
  | .error failure => (.error failure, e)
  | .ok m => e.sendInBlocks peer m request?

/-- Sends notifications in order, and remembers the ID of each. -/
def sendNotifications (e : Engine) : List Notification → Engine
  | [] => e
  | n :: rest =>
    let (result, e) := e.sendInBlocks n.peer n.message none
    let e := match result with
      | .ok id =>
        { e with subscriptions := e.subscriptions.recordId ⟨n.peer, n.message.token⟩ id }
      | .error _ => e
    e.sendNotifications rest

end Engine

end Coap
