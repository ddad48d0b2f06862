/-
# Subscriptions

A client subscribes to a resource by asking for it with Observe 0; the successful response
to that request makes the subscription and carries its first sequence number.  From then on
every change of the resource sends a notification, until the client or the server ends the
subscription.

Subscriptions are kept by peer and token, and beside that indexed by the path they are for.

Everyone who subscribed to a path is told of a change in one step (`notifyEach`), in which the state
of the resource is rendered as often as necessary.  It is assumed that rendering does not let
anything else happen in between: nobody subscribes or leaves, and no other change is announced,
before the last of them has been told.
-/
import Coap.Exchange.Outgoing
import Coap.Observe.Notification
import Coap.Observe.Resource

namespace Coap

/-- What a client subscribed to and how far it has been notified. -/
structure Subscription where
  path : String
  etags : List Bytes
  accept? : Option UInt16
  number : SequenceNumber
  lastId? : Option MessageId
deriving DecidableEq

/-- A listener that turns the changes of a resource into notifications about a path. -/
structure Watcher where
  resource : ResourceId
  listener : ListenerId
  path : String
deriving DecidableEq

/-- The resources, what is attached at which path, and the subscriptions. -/
structure Subscriptions where
  firstNumbers : Draws SequenceNumber
  resources : List Resource := []
  attached : Table String ResourceId := .empty
  watchers : List Watcher := []
  entries : Table ConversationKey Subscription := .empty
  byPath : Table String (List ConversationKey) := .empty

namespace Subscriptions

/-! ## Resources -/

/-- Adds a resource, not attached anywhere. -/
def addResource (s : Subscriptions) (r : Resource) : ResourceId × Subscriptions :=
  (s.resources.length, { s with resources := s.resources ++ [r] })

/-- Changes a resource. -/
def modifyResource (s : Subscriptions) (id : ResourceId) (f : Resource → Resource) :
    Subscriptions :=
  { s with resources := s.resources.modify id f }

/-- Renders a resource; an unknown one fails. -/
def render (s : Subscriptions) (id : ResourceId) (accept? : Option UInt16) :
    Except Failure Representation × Subscriptions :=
  match s.resources[id]? with
  | none => (.error .notFound, s)
  | some r =>
    let (rendered, r) := r.render accept?
    (rendered, s.modifyResource id fun _ => r)

/-- Makes a resource observable at a path, in place of the one attached there before. -/
def attach (s : Subscriptions) (path : String) (id : ResourceId) : Subscriptions :=
  match s.resources[id]? with
  | none => s
  | some r =>
    let path := Path.normalize path
    let (listener, listeners) := r.listeners.listen
    let s := s.modifyResource id fun r => { r with listeners }
    { s with
      attached := s.attached.insert path id
      watchers := s.watchers ++ [⟨id, listener, path⟩] }

/-- Adds resources in order and makes each observable at its path. -/
def attachAll (s : Subscriptions) (resources : List (String × Resource)) : Subscriptions :=
  resources.foldl (fun s (path, r) =>
    let (id, s) := s.addResource r
    s.attach path id) s

/-- Whether something is attached at a path. -/
def isObservable (s : Subscriptions) (path : String) : Bool :=
  s.attached.contains (Path.normalize path)

/-! ## The index -/

/-- Takes a subscription off the index; a path without subscriptions has no entry. -/
def unindex (s : Subscriptions) (path : String) (key : ConversationKey) : Subscriptions :=
  match s.byPath.get? path with
  | none => s
  | some keys =>
    match keys.filter (· != key) with
    | [] => { s with byPath := s.byPath.erase path }
    | rest => { s with byPath := s.byPath.insert path rest }

/-- Puts a subscription on the index. -/
def index (s : Subscriptions) (path : String) (key : ConversationKey) : Subscriptions :=
  let keys := (s.byPath.get? path).getD []
  { s with byPath := s.byPath.insert path (if keys.contains key then keys else keys ++ [key]) }

/-! ## Subscribing and unsubscribing -/

/-- The number of subscriptions. -/
def count (s : Subscriptions) : Nat := s.entries.size

/-- The latest sequence number of a subscription. -/
def number? (s : Subscriptions) (key : ConversationKey) : Option SequenceNumber :=
  (s.entries.get? key).map (·.number)

/-- Makes a subscription for a request, with a first sequence number drawn at random. -/
def register (s : Subscriptions) (key : ConversationKey) (path : String) (request : Message) :
    SequenceNumber × Subscriptions :=
  let (number, firstNumbers) := s.firstNumbers.next
  let previous? := s.entries.get? key
  let entry : Subscription :=
    { path, etags := request.etags, accept? := request.accept?, number, lastId? := none }
  let s := { s with firstNumbers, entries := s.entries.insert key entry }
  let s := match previous? with
    | some previous => if previous.path = path then s else s.unindex previous.path key
    | none => s
  (number, s.index path key)

/-- Ends a subscription, if there is one. -/
def remove (s : Subscriptions) (key : ConversationKey) : Subscriptions :=
  match s.entries.get? key with
  | none => s
  | some entry => { s with entries := s.entries.erase key }.unindex entry.path key

/-- Remembers the ID of the latest notification, so that a reset can name it. -/
def recordId (s : Subscriptions) (key : ConversationKey) (id : MessageId) : Subscriptions :=
  { s with entries := s.entries.modify key fun x => { x with lastId? := some id } }

/-- The subscription of a peer whose latest notification had an ID. -/
def findById? (s : Subscriptions) (peer : Endpoint) (id : MessageId) : Option ConversationKey :=
  (s.entries.entries.find? fun x => x.1.peer == peer && x.2.lastId? == some id).map (·.1)

/-- A subscription ends when its latest notification is rejected or never acknowledged. -/
def settle (s : Subscriptions) (event : ExchangeEvent) : Subscriptions :=
  match event.outcome.failure? with
  | none => s
  | some _ =>
    let key : ConversationKey := ⟨event.peer, event.token⟩
    match s.entries.get? key with
    | some x => if x.lastId? = some event.id then s.remove key else s
    | none => s

/-! ## Changes -/

/-- The state of a resource in the formats it has already been rendered in. -/
abbrev Renderings := List (Option UInt16 × Except Failure Representation)

/-- Renders a resource unless it has been rendered in this format before. -/
def renderOnce (s : Subscriptions) (id : ResourceId) (accept? : Option UInt16)
    (seen : Renderings) : Except Failure Representation × Renderings × Subscriptions :=
  match seen.find? (·.1 == accept?) with
  | some (_, rendered) => (rendered, seen, s)
  | none =>
    let (rendered, s) := s.render id accept?
    (rendered, seen ++ [(accept?, rendered)], s)

/-- The notification an edit amounts to; one that cannot be built is not sent. -/
def notificationsOf (peer : Endpoint) (e : Edit) : List Notification :=
  match e.fault? with
  | none => [⟨peer, e.message⟩]
  | some _ => []

/-- Notifies the given observers of a change.  Each observer's number goes up by one, and an
observer for whom the state cannot be rendered is told so and loses the subscription. -/
def notifyEach (id : ResourceId) (type : MessageType) :
    List ConversationKey → Renderings → Subscriptions → List Notification × Subscriptions
  | [], _, s => ([], s)
  | key :: rest, seen, s =>
    match s.entries.get? key with
    | none => notifyEach id type rest seen s
    | some x =>
      let number := x.number.next
      let s := { s with entries := s.entries.insert key { x with number } }
      let (rendered, seen, s) := s.renderOnce id x.accept? seen
      let (e, s) := match rendered with
        | .ok r => (Notification.ofState type key.token number r x.etags, s)
        | .error f => (Notification.ofFailure type key.token f, s.remove key)
      let (others, s) := notifyEach id type rest seen s
      (notificationsOf key.peer e ++ others, s)

/-- Notifies everyone who subscribed to a path of a change. -/
def change (s : Subscriptions) (path : String) (type? : Option MessageType) :
    List Notification × Subscriptions :=
  match s.attached.get? path with
  | none => ([], s)
  | some id =>
    let usual := match s.resources[id]? with
      | some r => r.notificationType
      | none => .nonConfirmable
    notifyEach id (type?.getD usual) ((s.byPath.get? path).getD []) [] s

/-- Ends the given subscriptions with a notification that the resource is gone. -/
def dismissEach (type : MessageType) :
    List ConversationKey → Subscriptions → List Notification × Subscriptions
  | [], s => ([], s)
  | key :: rest, s =>
    if s.entries.contains key then
      let (others, s) := dismissEach type rest { s with entries := s.entries.erase key }
      (notificationsOf key.peer (Notification.ofRemoval type key.token) ++ others, s)
    else dismissEach type rest s

/-- Detaches what is attached at a path and dismisses everyone who subscribed to it; the
listener that heard of the removal is unregistered. -/
def detach (s : Subscriptions) (path : String) (listener : ListenerId) :
    List Notification × Subscriptions :=
  let id? := s.attached.get? path
  let keys := (s.byPath.get? path).getD []
  let type := match id?.bind fun id => s.resources[id]? with
    | some r => r.notificationType
    | none => .nonConfirmable
  let s := { s with attached := s.attached.erase path, byPath := s.byPath.erase path }
  let (notifications, s) := dismissEach type keys s
  (notifications,
    match id? with
    | some id =>
      s.modifyResource id fun r => { r with listeners := r.listeners.unregister listener }
    | none => s)

/-- A watcher hears events of its resource; the removal is the last one it hears. -/
def hear (w : Watcher) :
    List ResourceEvent → Subscriptions → List Notification × Subscriptions
  | [], s => ([], s)
  | .changed type? :: rest, s =>
    let (first, s) := s.change w.path type?
    let (others, s) := hear w rest s
    (first ++ others, s)
  | .removed :: _, s =>
    let (notifications, s) := s.detach w.path w.listener
    let s := s.modifyResource w.resource fun r =>
      { r with listeners := r.listeners.close w.listener }
    (notifications, { s with watchers := s.watchers.filter (· != w) })

/-- The given watchers take the events out of their inboxes and hear them. -/
def hearAll : List Watcher → Subscriptions → List Notification × Subscriptions
  | [], s => ([], s)
  | w :: rest, s =>
    let events := match s.resources[w.resource]? with
      | some r => r.listeners.inbox w.listener
      | none => []
    let s := s.modifyResource w.resource fun r =>
      { r with listeners := (r.listeners.drain w.listener).2 }
    let (first, s) := hear w events s
    let (others, s) := hearAll rest s
    (first ++ others, s)

/-- A resource tells an event, and all its watchers hear it. -/
def announce (s : Subscriptions) (id : ResourceId) (event : ResourceEvent) :
    List Notification × Subscriptions :=
  let s := s.modifyResource id fun r => { r with listeners := r.listeners.publish event }
  hearAll (s.watchers.filter (·.resource == id)) s

/-! ## The layer -/

/-- Whether a request asks to observe with the given number, zero to begin and one to end. -/
def asksToObserve (m : Message) (n : Nat) : Bool :=
  m.method? == some .get && m.observed? == some (.ofNat n)

/-- A received message.  A reset that names the latest notification ends the subscription
it belongs to; so does a request that asks for it. -/
def receive (s : Subscriptions) (peer : Endpoint) (m : Message) : Verdict × Subscriptions :=
  if m.type = .reset ∧ m.isEmpty then
    match s.findById? peer m.id with
    | some key => (.consume, s.remove key)
    | none => (.forward m, s)
  else if asksToObserve m 1 then (.forward m, s.remove ⟨peer, m.token⟩)
  else (.forward m, s)

/-- A message to be sent, which may answer a request.  The successful answer to a request to
observe makes a subscription and carries its number; any other answer ends it. -/
def send (s : Subscriptions) (peer : Endpoint) (m : Message) (request? : Option Message) :
    Except SendFailure Message × Subscriptions :=
  match request? with
  | none => (.ok m, s)
  | some request =>
    if m.isResponse ∧ asksToObserve request 0 then
      let key : ConversationKey := ⟨peer, m.token⟩
      let path := Path.normalize request.uriPath
      if m.isSuccess ∧ s.attached.contains path then
        let (number, s) := s.register key path request
        match (m.setObserve number).toExcept with
        | .ok m => (.ok m, s)
        | .error fault => (.error (.notBuilt fault), s)
      else (.ok m, s.remove key)
    else (.ok m, s)

end Subscriptions

end Coap
