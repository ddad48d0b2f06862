/-
# A client and a server

Two nodes exchange datagrams over a network that does with them what it likes.  Whatever one of
them has sent may arrive at the other at any time, again and again, in any order, or never; that
is all the network can do, so a datagram in flight needs no state of its own.  What happens
inside the nodes is left open as well: their timers, the outcomes of exchanges, the changes of
resources, and what the handlers of the server do about a request.
-/
import Coap.Proofs.Engine.Served
import Coap.Proofs.Engine.Told
import Coap.Proofs.Datagram.RoundTrip

namespace Coap

/-! ## Nodes and datagrams -/

namespace Engine

/-- The datagrams that were sent to a peer so far, in order. -/
def datagrams (e : Engine) (peer : Endpoint) : List Bytes :=
  (e.sent.filter (·.1 = peer)).map fun x => Datagram.encode x.2

/-- A datagram arrives.  The exchange it ends may be concluded at once or another time. -/
def arrival (peer : Endpoint) (datagram : Bytes) (concludes : Bool) : Event :=
  match Datagram.decode datagram, concludes with
  | .ok m, false => .absorb peer m
  | decoded, _ => .handle peer decoded

end Engine

/-- A request that was submitted, with its token, and who submitted it. -/
structure Submission where
  request : Message
  requester : Requester

/-- The request that an event submits, if it gets a token. -/
def Engine.submitted (e : Engine) : Engine.Event → List Submission
  | .submit peer m requester =>
    match (e.withToken peer m).1 with
    | .ok request => [⟨request, requester⟩]
    | .error _ => []
  | _ => []

theorem Engine.submitted_arrival (e : Engine) (peer : Endpoint) (datagram : Bytes)
    (concludes : Bool) : e.submitted (Engine.arrival peer datagram concludes) = [] := by
  unfold arrival
  split <;> rfl

/-- A client and a server, and where each of them is for the other. -/
structure Network where
  clientAt : Endpoint
  serverAt : Endpoint
  client : Engine
  server : Engine

/-- What a node is started with. -/
structure Setup where
  config : Config
  chances : Chances
  service : Service
  resources : List (String × Resource)

/-- A node that is started. -/
def Setup.start (s : Setup) : Engine := .start s.config s.chances s.service s.resources

namespace Network

/-- A client and a server that are started. -/
def start (clientAt serverAt : Endpoint) (client server : Setup) : Network :=
  ⟨clientAt, serverAt, client.start, server.start⟩

/-! ## Runs -/

/-- What can happen to two nodes. -/
inductive Event
  /-- Something happens at the client, among this that a request is submitted. -/
  | client (event : Engine.Event)
  /-- Something happens at the server. -/
  | server (event : Engine.Event)
  /-- The handlers of the server behave in another way from now on. -/
  | serves (service : Service)
  /-- The datagram with this number, of those the client has sent, arrives at the server. -/
  | toServer (number : Nat) (concludes : Bool)
  /-- The datagram with this number, of those the server has sent, arrives at the client. -/
  | toClient (number : Nat) (concludes : Bool)

/-- What an event is for the client. -/
def clientEvent? (n : Network) : Event → Option Engine.Event
  | .client event => some event
  | .toClient number concludes =>
    (n.server.datagrams n.clientAt)[number]?.map (Engine.arrival n.serverAt · concludes)
  | _ => none

/-- What an event is for the server. -/
def serverEvent? (n : Network) : Event → Option Engine.Event
  | .server event => some event
  | .toServer number concludes =>
    (n.client.datagrams n.serverAt)[number]?.map (Engine.arrival n.clientAt · concludes)
  | _ => none

/-- The nodes after an event. -/
def step (n : Network) (event : Event) : Network :=
  let n := match event with
    | .serves service => { n with server := { n.server with service } }
    | _ => n
  { n with
    client := (n.clientEvent? event).elim n.client n.client.step
    server := (n.serverEvent? event).elim n.server n.server.step }

/-- The nodes after a history. -/
def run (n : Network) : List Event → Network
  | [] => n
  | event :: rest => (n.step event).run rest

/-- The requests that an event submits to the client. -/
def newSubmissions (n : Network) (event : Event) : List Submission :=
  (n.clientEvent? event).elim [] n.client.submitted

/-- The requests that the server hands to its handlers in an event. -/
def newServings (n : Network) (event : Event) : List Serving :=
  (n.serverEvent? event).elim [] n.server.servings

/-- The responses that the handlers of the server make in an event. -/
def newAnswers (n : Network) (event : Event) : List Answer :=
  (n.serverEvent? event).elim [] n.server.answered

/-- What the events of a history bring, in order. -/
def collect {α : Type} (f : Network → Event → List α) (n : Network) : List Event → List α
  | [] => []
  | event :: rest => f n event ++ (n.step event).collect f rest

/-- The requests that are submitted to the client. -/
def submissions : Network → List Event → List Submission := collect newSubmissions

/-- The requests that the server hands to its handlers. -/
def servings : Network → List Event → List Serving := collect newServings

/-- The responses that the handlers of the server make. -/
def answered : Network → List Event → List Answer := collect newAnswers

/-! ## Permitted events -/

/-- A request of a kind that has one response, in one piece: it asks neither to observe nor for
a block. -/
structure IsSimple (m : Message) : Prop where
  built : Built m
  request : m.isRequest = true
  type : m.type = .confirmable ∨ m.type = .nonConfirmable
  plain : m.block1? = none ∧ m.block2? = none ∧ m.observed? = none

/-- An event that may happen: the client sends simple requests to the server and the server sends
none, the nodes get no datagrams but each other's, and the clock of the server does not go beyond
a time. -/
def Permits (n : Network) (last : Instant) : Event → Prop
  | .client (.submit peer m _) => peer = n.serverAt ∧ IsSimple m
  | .client event => event.IsInner
  | .server event => event.IsInner ∧ event.Suits last
  | .serves _ | .toServer _ _ | .toClient _ _ => True

/-- A response that goes out in one piece and is no notification. -/
structure IsWhole (a : Answer) (exponent : Nat) : Prop where
  built : Built a.response
  fits : a.Fits exponent
  observed : a.response.observed? = none

end Network

/-! ## Datagrams that arrive -/

theorem Message.IsSignal.built {m : Message} (h : m.IsSignal) : Built m := by
  obtain ⟨id, rfl | rfl⟩ := h
  · exact .emptyAck id
  · exact .resetOf id

/-- A signal asks for nothing and carries nothing. -/
theorem Message.IsSignal.spec {m : Message} (h : m.IsSignal) :
    m.isRequest = false ∧ m.isResponse = false ∧ m.observed? = none ∧
      m.type ≠ .nonConfirmable := by
  obtain ⟨id, rfl | rfl⟩ := h <;> exact ⟨rfl, rfl, rfl, fun htype => by cases htype⟩

theorem Built.readdress {m : Message} (h : Built m) (type : MessageType) (id : MessageId) :
    Built { m with type, id } :=
  .change (.change h (.setType type)) (.setId id)

/-- A message takes on a token if it is not empty. -/
theorem Built.withToken {m : Message} (h : Built m) (hfull : ¬ m.isEmpty) (token : Token) :
    Built { m with token } := by
  have hset := Built.change h (.setToken token)
  simp only [Change.run, Message.setToken, if_neg fun hempty => hfull (And.left hempty)] at hset
  exact hset

theorem Engine.mem_datagrams {e : Engine} {peer : Endpoint} {datagram : Bytes} {number : Nat}
    (h : (e.datagrams peer)[number]? = some datagram) :
    ∃ m, e.Holds peer m ∧ datagram = Datagram.encode m := by
  obtain ⟨x, hx, rfl⟩ := List.mem_map.1 (List.mem_of_getElem? h)
  obtain ⟨hsent, hpeer⟩ := List.mem_filter.1 hx
  refine ⟨x.2, .sent ?_, rfl⟩
  rw [← of_decide_eq_true hpeer]
  exact hsent

/-- A datagram that was written for a message is read as this message. -/
theorem Engine.arrival_encode {m : Message} (hbuilt : Built m)
    (hplace : ¬(m.type = .nonConfirmable ∧ m.code = .empty)) (peer : Endpoint) (concludes : Bool) :
    Engine.arrival peer (Datagram.encode m) concludes = .handle peer (.ok m) ∨
      Engine.arrival peer (Datagram.encode m) concludes = .absorb peer m := by
  unfold arrival
  rw [Datagram.decode_encode_of_built hbuilt hplace]
  cases concludes with
  | false => exact .inr rfl
  | true => exact .inl rfl

end Coap
