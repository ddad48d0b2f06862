/-
# Requests the engine answers

A request that has passed all layers is handed to the service.  Whatever the service makes
of it, the response is addressed as the request demands, and leaves through all layers.
-/
import Coap.Datagram.Basic
import Coap.Engine.Requests

namespace Coap.Engine

/-! ## Answering -/

/-- A response with the type, ID and token that the request demands. -/
def addressTo (request response : Message) : Message :=
  let typed := match request.type with
    | .confirmable => { response with type := .acknowledgement, id := request.id }
    | _ => { response with type := .nonConfirmable }
  (typed.setToken request.token).message

/-- Sends the response to a request; if that fails nobody is left to be told. -/
def answer (e : Engine) (peer : Endpoint) (request response : Message) : Engine :=
  (e.sendThrough peer (addressTo request response) (some request)).2

/-- The response with the state of a resource, or just its validators if the client has the
state already. -/
def stateReply (request : Message) (r : Representation) : Edit :=
  let reply := request.successReply
  if r.matchesAny request.etags then r.writeValidators (reply.setCode (.response .valid))
  else r.write reply

/-- Answers with the state of a resource. -/
def answerState (e : Engine) (peer : Endpoint) (request : Message) (id : ResourceId) : Engine :=
  let (rendered, subscriptions) := e.subscriptions.render id request.accept?
  let e := { e with subscriptions }
  match rendered with
  | .error failure => e.answer peer request (failure.respond request)
  | .ok r =>
    let edit := stateReply request r
    match edit.fault? with
    | none => e.answer peer request edit.message
    | some fault => e.answer peer request ((Failure.internal fault.message).respond request)

/-- The failure that is reported when a request was given up. -/
def abandoned : Failure := .internal "request handler did not respond"

/-- Does what a reaction says; a wait that takes no time is no wait. -/
def react (e : Engine) (peer : Endpoint) (request : Message) : Reaction → Engine
  | .respond response => e.answer peer request response
  | .fail failure => e.answer peer request (failure.respond request)
  | .render id => e.answerState peer request id
  | .abandon => e.answer peer request (abandoned.respond request)
  | .hold => e
  | .after delay reaction =>
    let due := Instant.tick (e.now + delay)
    if due ≤ e.now then e.react peer request reaction
    else { e with delayed := e.delayed ++ [⟨due, peer, request, reaction⟩] }

/-- Hands a request to the service. -/
def serve (e : Engine) (peer : Endpoint) (request : Message) : Engine :=
  let call := e.service { message := request, peer }
  let e := match call.handler? with
    | some name => e.note (.called name)
    | none => e
  e.react peer request call.reaction

/-! ## Receiving -/

/-- A message that has passed all layers. -/
def accept (e : Engine) (peer : Endpoint) (m : Message) : Engine :=
  match m.code.meaning with
  | .request _ => e.serve peer m
  | .response _ => e.deliver peer m
  | .empty => e
  | .reserved _ => e

/-- A message for the layer of subscriptions. -/
def receiveObserved (e : Engine) (peer : Endpoint) (m : Message) : Engine :=
  let (verdict, subscriptions) := e.subscriptions.receive peer m
  let e := { e with subscriptions }
  match verdict with
  | .forward m => e.accept peer m
  | .consume => e
  | .reply reply => (e.sendInBlocks peer reply (some m)).2

/-- A message for the layer of transfers. -/
def receiveInBlocks (e : Engine) (peer : Endpoint) (m : Message) : Engine :=
  let (verdict, transfers) := e.transfers.receive e.now peer m
  let e := { e with transfers }
  match verdict with
  | .forward m => e.receiveObserved peer m
  | .consume => e
  | .reply reply => (e.sendReliably peer reply).2

/-- A message for the layer of acknowledgements. -/
def receiveReliably (e : Engine) (peer : Endpoint) (m : Message) : Engine :=
  let (verdict, replies, incoming) := e.incoming.receive e.now peer m
  let e := { e with incoming }.transmitAll (replies.map (peer, ·))
  match verdict with
  | .forward m => e.receiveInBlocks peer m
  | .consume => e
  | .reply reply => (e.sendNumbered peer reply).2

/-- A received message.  If it ends an exchange, that is concluded after the message has been
dealt with. -/
def receive (e : Engine) (peer : Endpoint) (m : Message) : Engine :=
  let (verdict, event?, outgoing) := e.outgoing.receive peer m
  let e := { e with outgoing }
  let e := match verdict with
    | .forward m => e.receiveReliably peer m
    | .consume => e
    | .reply reply => e.transmit peer reply
  (e.concludeAll event?.toList).settle

/-- The response to a request with an unacceptable critical option. -/
def badOptionReply (type : MessageType) (id : MessageId) (token : Token)
    (fault : OptionFault) : Message :=
  let reply : Message := { type, code := .response .badOption, id, token }
  let described := (reply.setContentFormat Failure.plainText).message
  (described.setPayload (Bytes.ofString fault.message)).message

/-- A datagram without a message.  It is rejected if its ID is known; a request with an
unacceptable critical option is told what is wrong. -/
def reject (e : Engine) (peer : Endpoint) : Datagram.DecodeFault → Engine
  | .malformed none _ => e
  | .malformed (some id) _ => e.transmit peer (.resetOf id)
  | .badOption id token type _ fault =>
    match type with
    | .confirmable => e.transmit peer (badOptionReply .acknowledgement id token fault)
    | .nonConfirmable =>
      (e.sendNumbered peer (badOptionReply .nonConfirmable id token fault)).2
    | _ => e

/-- What a datagram was found to hold. -/
def handle (e : Engine) (peer : Endpoint) : Except Datagram.DecodeFault Message → Engine
  | .ok m => e.receive peer m
  | .error fault => e.reject peer fault

/-! ## Resources -/

/-- A resource tells an event to its observers. -/
def announce (e : Engine) (id : ResourceId) (event : ResourceEvent) : Engine :=
  let (notifications, subscriptions) := e.subscriptions.announce id event
  { e with subscriptions }.sendNotifications notifications

/-- Replaces the state of a resource without telling anyone. -/
def setState (e : Engine) (id : ResourceId)
    (state : Option UInt16 → Except Failure Representation) : Engine :=
  { e with subscriptions := e.subscriptions.modifyResource id fun r => { r with state } }

/-! ## Time -/

/-- When something is due next. -/
def nextDue (e : Engine) : Instant :=
  let own := min e.outgoing.nextDue e.incoming.nextSweep
  Clock.earlier own (Clock.earliest? (e.delayed.map (·.due) ++ e.deadlines.map (·.due)))

/-- The handlers whose waits are over go on. -/
def resume (e : Engine) (due : List Delayed) : Engine :=
  due.foldl (fun e d => e.react d.peer d.request d.reaction) e

/-- Gives up the requests whose answers did not come in time. -/
def expireAll (e : Engine) (due : List Deadline) : Engine :=
  due.foldl (fun e d => e.expire d.key d.number) e

/-- Does everything that is due at a time. -/
def fire (now : Instant) (e : Engine) : Engine :=
  let e := { e with now }
  let (fired, outgoing) := e.outgoing.fire e.outboxOpen now
  let e := ({ e with outgoing }.transmitAll fired.sent).concludeAll fired.events
  let e :=
    if e.incoming.nextSweep ≤ now then
      let (sent, incoming) := e.incoming.sweep now
      { e with incoming }.transmitAll sent
    else e
  let delayed := e.delayed.filter (·.due ≤ now)
  let e := { e with delayed := e.delayed.filter (now < ·.due) }.resume delayed
  let deadlines := e.deadlines.filter (·.due ≤ now)
  ({ e with deadlines := e.deadlines.filter (now < ·.due) }.expireAll deadlines).settle

/-- Lets time pass. -/
def advance (e : Engine) (duration : Duration) : Engine :=
  let target := e.now + duration
  { Clock.advance nextDue fire target e.now e with now := target }

end Coap.Engine
