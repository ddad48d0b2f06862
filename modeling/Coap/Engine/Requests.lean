/-
# Requests the engine sends

A request opens a conversation, known by peer and token.  The conversation lasts until an
answer that is no notification arrives, until the request turns out to be in vain, or until
it is withdrawn or another request takes its token.

A requester that waits for the result of its request withdraws the request as soon as it
has one.  That happens after the step that brought the result, so withdrawals are collected
and carried out at the end of each step.
-/
import Coap.Engine.Basic

namespace Coap.Engine

/-! ## Reports -/

/-- Tells a requester about its request; one that waits is told once, and then withdraws. -/
def report (e : Engine) (key : ConversationKey) (c : Conversation) (r : Report)
    (outcome : Except SendFailure Message) : Engine :=
  match c.requester.interest with
  | .awaiting =>
    if c.settled then e
    else
      let e := e.note (.reported c.requester.name key.peer (.result outcome))
      { e with
        withdrawing := e.withdrawing ++ [key]
        conversations := e.conversations.modify key fun c' =>
          if c'.number = c.number then { c' with settled := true } else c' }
  | _ => e.note (.reported c.requester.name key.peer r)

/-- Reports a response. -/
def reportResponse (e : Engine) (key : ConversationKey) (c : Conversation) (m : Message) :
    Engine :=
  e.report key c (.response m) (.ok m)

/-- Reports that the request was in vain. -/
def reportFailure (e : Engine) (key : ConversationKey) (c : Conversation)
    (failure : SendFailure) : Engine :=
  let r : Report := match c.requester.interest, failure with
    | .full, .reset => .reset
    | .full, .noReply n => .timeout n
    | _, _ => .failed failure
  e.report key c r (.error failure)

/-! ## Conversations -/

/-- Ends a conversation without a report, except to a requester that still waits. -/
def dropConversation (e : Engine) (key : ConversationKey) : Engine :=
  match e.conversations.get? key with
  | none => e
  | some c =>
    let e := { e with conversations := e.conversations.erase key }
    if c.requester.interest = .awaiting then e.reportFailure key c .shutDown else e

/-- Ends a conversation and gives up its token. -/
def closeConversation (e : Engine) (key : ConversationKey) : Engine :=
  { e with
    conversations := e.conversations.erase key
    tokens := e.tokens.release key.peer key.token }

/-- Withdraws a request: what is repeated of it stops, and later answers count as unasked
for. -/
def withdraw (e : Engine) (key : ConversationKey) : Engine :=
  let e := e.dropConversation key
  { e with
    outgoing := e.outgoing.cancel key.peer key.token
    tokens := e.tokens.release key.peer key.token }

/-- Carries out at most `n` of the collected withdrawals. -/
def withdrawCollected : Nat → Engine → Engine
  | 0, e => e
  | n + 1, e =>
    match e.withdrawing with
    | [] => e
    | key :: rest => withdrawCollected n ({ e with withdrawing := rest }.withdraw key)

/-- Carries out the collected withdrawals, and those they bring about: each of these ends a
conversation, so there are no more of them than conversations. -/
def settle (e : Engine) : Engine :=
  withdrawCollected (e.withdrawing.length + e.conversations.size) e

/-! ## Sending a request -/

/-- Gives a request a token that is in use from now on. -/
def withToken (e : Engine) (peer : Endpoint) (m : Message) :
    Except SendFailure Message × Engine :=
  if m.token.isEmpty then
    let (token, tokens) := e.tokens.generate peer
    let e := { e with tokens }
    match token with
    | .error cause => (.error (.noToken cause), e)
    | .ok token =>
      match (m.setToken token).toExcept with
      | .error fault => (.error (.notBuilt fault), e)
      | .ok m => (.ok m, e)
  else (.ok m, { e with tokens := (e.tokens.reserve peer m.token).2 })

/-- Opens a conversation, in place of the one before under its token. -/
def openConversation (e : Engine) (key : ConversationKey) (requester : Requester) : Engine :=
  let e := e.dropConversation key
  { e with
    nextNumber := e.nextNumber + 1
    conversations := e.conversations.insert key { number := e.nextNumber, requester } }

/-- Tells a requester that its request did not go out. -/
def reportUnsent (e : Engine) (peer : Endpoint) (requester : Requester)
    (failure : SendFailure) : Engine :=
  let r : Report := match requester.interest with
    | .awaiting => .result (.error failure)
    | _ => .failed failure
  e.note (.reported requester.name peer r)

/-- Sends a request and answers with its token, if it went out.  Failures are reported to
the requester. -/
def submit (e : Engine) (peer : Endpoint) (m : Message) (requester : Requester) :
    Option Token × Engine :=
  let (tokened, e) := e.withToken peer m
  match tokened with
  | .error failure => (none, (e.reportUnsent peer requester failure).settle)
  | .ok m =>
    let key : ConversationKey := ⟨peer, m.token⟩
    let (result, e) := (e.openConversation key requester).sendThrough peer m none
    match result with
    | .ok _ => (some m.token, e.settle)
    | .error failure =>
      (none, ((e.closeConversation key).reportUnsent peer requester failure).settle)

/-- Withdraws the request under a token. -/
def cancel (e : Engine) (key : ConversationKey) : Engine := (e.withdraw key).settle

/-! ## Outcomes -/

/-- Gives up a request whose answer did not come in time, unless it was answered or another
request has its token by now. -/
def expire (e : Engine) (key : ConversationKey) (number : Nat) : Engine :=
  match e.conversations.get? key with
  | none => e
  | some c =>
    if c.number = number ∧ c.latest?.isNone then
      (e.closeConversation key).reportFailure key c (.noResponse e.responseTimeout)
    else e

/-- The outcome of an exchange ends the subscription or the request it belongs to, or starts
the time in which an acknowledged request has to be answered. -/
def conclude (e : Engine) (event : ExchangeEvent) : Engine :=
  let e := { e with subscriptions := e.subscriptions.settle event }
  let key : ConversationKey := ⟨event.peer, event.token⟩
  match e.conversations.get? key with
  | none => e
  | some c =>
    match event.outcome.failure? with
    | some failure => (e.closeConversation key).reportFailure key c failure
    | none =>
      if c.latest?.isSome then e
      else
        let due := Instant.tick (e.now + e.responseTimeout)
        if due ≤ e.now then e.expire key c.number
        else { e with deadlines := e.deadlines ++ [⟨due, key, c.number⟩] }

/-- Concludes exchanges in order. -/
def concludeAll (e : Engine) (events : List ExchangeEvent) : Engine :=
  events.foldl conclude e

/-- A response that has passed all layers.  Of the notifications only those go on that are
fresher than the latest; any other answer ends the conversation. -/
def deliver (e : Engine) (peer : Endpoint) (m : Message) : Engine :=
  let key : ConversationKey := ⟨peer, m.token⟩
  match e.conversations.get? key with
  | none => if m.type = .nonConfirmable then e.transmit peer (.resetOf m.id) else e
  | some c =>
    match m.observed?.filter fun _ => m.isSuccess with
    | none => (e.closeConversation key).reportResponse key c m
    | some number =>
      let fresh := match c.latest? with
        | none => true
        | some (previous, time) => number.isFresherThan previous (e.now - time)
      if fresh then
        let c := { c with latest? := some (number, e.now) }
        { e with conversations := e.conversations.insert key c }.reportResponse key c m
      else e

end Coap.Engine
