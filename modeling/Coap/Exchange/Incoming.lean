/-
# Messages that arrive more than once

A peer repeats a confirmable message until it is acknowledged, and a network may deliver
any message twice.  This layer lets each message through once and acknowledges the
confirmable ones: a request by its response if that comes soon, and otherwise by an empty
acknowledgement; everything else at once.

A new request is remembered and its deadline is set in one step (`receiveRequest`).  It is assumed
that the deadlines are not looked through, and that the request is not answered, between the two.
-/
import Coap.Config.Basic
import Coap.Exchange.Verdict

namespace Coap

/-- How far a remembered message has been acknowledged. -/
inductive AckState
  /-- The acknowledgement waits for the response. -/
  | waiting
  /-- An empty acknowledgement was sent. -/
  | acknowledged
  /-- This response was sent as the acknowledgement. -/
  | responded (response : Message)
  /-- The message asks for no acknowledgement. -/
  | unasked
deriving DecidableEq

/-- A remembered message. -/
structure IncomingRecord where
  state : AckState
  expires : Instant
deriving DecidableEq

/-- The messages that have been received lately, and when the waiting acknowledgements are
due, in the order in which they fall due. -/
structure Incoming where
  emptyAckDelay : Duration
  exchangeLifetime : Duration
  nonLifetime : Duration
  sweepInterval : Duration
  records : Table MessageKey IncomingRecord := .empty
  schedule : List (Instant × MessageKey) := []
  nextSweep : Instant
  nextPurge : Instant

namespace Incoming

/-- How often expired records are dropped. -/
def purgeInterval : Duration := Duration.ofSeconds 1

/-- Nothing received yet, at the start of the clock. -/
def start (c : Config) : Incoming where
  emptyAckDelay := c.emptyAckDelay
  exchangeLifetime := c.exchangeLifetime
  nonLifetime := c.nonLifetime
  sweepInterval := c.sweepInterval
  nextSweep := c.sweepInterval
  nextPurge := purgeInterval

/-- The record of a message that has not expired. -/
def live? (s : Incoming) (now : Instant) (key : MessageKey) : Option IncomingRecord :=
  (s.records.get? key).filter (now < ·.expires)

/-- Remembers a message. -/
def record (s : Incoming) (key : MessageKey) (state : AckState) (expires : Instant) : Incoming :=
  { s with records := s.records.insert key ⟨state, expires⟩ }

/-- A message whose acknowledgement does not have to wait, and whether it is new. -/
def remember (s : Incoming) (now : Instant) (key : MessageKey) (state : AckState)
    (lifetime : Duration) : Bool × Incoming :=
  match s.live? now key with
  | some _ => (false, s)
  | none => (true, s.record key state (now + lifetime))

/-- A confirmable request.  A new one goes on, and its acknowledgement waits; a duplicate is
acknowledged once more, by the response if there is one. -/
def receiveRequest (s : Incoming) (now : Instant) (key : MessageKey) (m : Message) :
    Verdict × List Message × Incoming :=
  match s.live? now key with
  | none =>
    let s := s.record key .waiting (now + s.exchangeLifetime)
    (.forward m, [], { s with schedule := s.schedule ++ [(now + s.emptyAckDelay, key)] })
  | some r =>
    match r.state with
    | .responded response => (.consume, [response], s)
    | .unasked => (.consume, [], s)
    | .waiting => (.consume, [.emptyAck key.id], s.record key .acknowledged r.expires)
    | .acknowledged => (.consume, [.emptyAck key.id], s)

/-- A received message, with the messages that go back to the peer at once. -/
def receive (s : Incoming) (now : Instant) (peer : Endpoint) (m : Message) :
    Verdict × List Message × Incoming :=
  let key : MessageKey := ⟨peer, m.id⟩
  match m.type with
  | .acknowledgement => (.forward m, [], s)
  | .reset => (.forward m, [], s)
  | .nonConfirmable =>
    let (new, s) := s.remember now key .unasked s.nonLifetime
    (if new then .forward m else .consume, [], s)
  | .confirmable =>
    match m.code.meaning with
    | .empty => (.consume, [.resetOf m.id], s)
    | .reserved _ => (.consume, [.resetOf m.id], s)
    | .response _ =>
      let (new, s) := s.remember now key .acknowledged s.exchangeLifetime
      (if new then .forward m else .consume, [.emptyAck m.id], s)
    | .request _ => s.receiveRequest now key m

/-- A message to be sent.  A response may travel on the acknowledgement only while that
still waits; otherwise it becomes a confirmable message of its own. -/
def send (s : Incoming) (peer : Endpoint) (m : Message) : Message × Incoming :=
  if m.type = .acknowledgement ∧ !m.isEmpty then
    let key : MessageKey := ⟨peer, m.id⟩
    match s.records.get? key with
    | some ⟨.waiting, expires⟩ => (m, s.record key (.responded m) expires)
    | _ => ({ m with type := .confirmable }, s)
  else (m, s)

/-- Sends the empty acknowledgements of those of the given messages that still wait. -/
def fireAcks : List MessageKey → Incoming → List (Endpoint × Message) × Incoming
  | [], s => ([], s)
  | key :: rest, s =>
    match s.records.get? key with
    | some ⟨.waiting, expires⟩ =>
      let (sent, s) := fireAcks rest (s.record key .acknowledged expires)
      ((key.peer, .emptyAck key.id) :: sent, s)
    | _ => fireAcks rest s

/-- Drops the expired records if it is time to. -/
def purge (s : Incoming) (now : Instant) : Incoming :=
  if s.nextPurge ≤ now then
    { s with
      records := s.records.filter fun _ r => now < r.expires
      nextPurge := now + purgeInterval }
  else s

/-- Sends the acknowledgements that are due and tidies up. -/
def sweep (s : Incoming) (now : Instant) : List (Endpoint × Message) × Incoming :=
  let due := s.schedule.takeWhile fun e => e.1 ≤ now
  let s := { s with schedule := s.schedule.drop due.length }
  let (sent, s) := fireAcks (due.map (·.2)) s
  (sent, { s.purge now with nextSweep := now + s.sweepInterval })

end Incoming

end Coap
