/-
# What all steps of a node keep

Much is said of a node by a relation between its state before and its state after: what it
has told someone, which of its tables are the same, what it may have begun.  Such a relation
has to be followed through all layers and all events.  This file does so once: a relation that
can be chained and holds for the few changes that everything else is made of holds for every
event.
-/
import Coap.Proofs.Engine.Events
import Coap.Proofs.Engine.Layers

namespace Coap.Engine

variable {R R' : Engine → Engine → Prop} {Serves : Endpoint → Token → Prop} {e : Engine}
  {peer : Endpoint} {m m' : Message} {event : Event}

/-! ## Sending and serving -/

/-- A relation that holds for what sending and serving are made of, as long as the tokens that
responses carry are among the given ones. -/
structure ServingFrame (R : Engine → Engine → Prop) (Serves : Endpoint → Token → Prop) :
    Prop where
  refl : ∀ e, R e e
  trans : ∀ {e e' e''}, R e e' → R e' e'' → R e e''
  sent : ∀ e peer m, R e (e.note (.sent peer m))
  called : ∀ e handler, R e (e.note (.called handler))
  incoming : ∀ e incoming, R e { e with incoming }
  transfers : ∀ e transfers, R e { e with transfers }
  numbered : ∀ e peer m, (m.type = .confirmable → Serves peer m.token) →
    R e { e with outgoing := (e.outgoing.send e.now peer m).2 }
  subscribed : ∀ e peer m request?, (m.isResponse = true → Serves peer m.token) →
    R e { e with subscriptions := (e.subscriptions.send peer m request?).2 }
  rendered : ∀ e id accept?, R e { e with subscriptions := (e.subscriptions.render id accept?).2 }
  delayed : ∀ e d, Serves d.peer d.request.token → R e { e with delayed := e.delayed ++ [d] }

/-- A message that may be sent: it carries one of the tokens, or it consists of its header and
is not confirmable. -/
def Permits (Serves : Endpoint → Token → Prop) (peer : Endpoint) (m : Message) : Prop :=
  Serves peer m.token ∨ m.isEmpty = true ∧ m.type ≠ .confirmable

/-- What may be said depends on the header of a message alone. -/
theorem Permits.of_sameHeader (h : Permits Serves peer m) (hheader : m.SameHeader m') :
    Permits Serves peer m' := by
  unfold Permits Message.isEmpty
  rw [hheader.type_eq, hheader.code_eq, hheader.token_eq]
  exact h

/-- A message that is not confirmable takes on a token, or has no room for it. -/
theorem permits_setToken {token : Token} (htype : m.type ≠ .confirmable)
    (h : Serves peer token) : Permits Serves peer (m.setToken token).message := by
  unfold Message.setToken
  split
  · next hempty => exact .inr ⟨hempty.1, htype⟩
  · exact .inl h

/-- A response that carries the token of its request may go where that token is served. -/
theorem permits_addressTo {request : Message} (response : Message)
    (h : Serves peer request.token) : Permits Serves peer (addressTo request response) := by
  unfold addressTo
  simp only
  split <;> exact permits_setToken (by simp) h

/-- The header of the reply that tells what is wrong with an option. -/
theorem sameHeader_badOptionReply (type : MessageType) (id : MessageId) (token : Token)
    (fault : OptionFault) : Message.SameHeader
      { type, code := .response .badOption, id, token } (badOptionReply type id token fault) :=
  .trans (.setUnsigned _ _ _) (.setPayload _ _)

namespace ServingFrame

variable (h : ServingFrame R Serves)

include h

/-- Transmitting is a step of the outbox. -/
theorem transmit (e : Engine) (peer : Endpoint) (m : Message) : R e (e.transmit peer m) := by
  unfold Engine.transmit
  split
  · exact h.sent e peer m
  · exact h.refl e

/-- Transmitting many is one such step after another. -/
theorem transmitAll (messages : List (Endpoint × Message)) (e : Engine) :
    R e (e.transmitAll messages) := by
  induction messages generalizing e with
  | nil => exact h.refl e
  | cons x rest ih => exact h.trans (h.transmit e x.1 x.2) (ih _)

/-- Only a confirmable message opens an exchange, under its own token. -/
theorem sendNumbered (e : Engine) (hm : m.type = .confirmable → Serves peer m.token) :
    R e (e.sendNumbered peer m).2 := by
  have hlayer := h.numbered e peer m hm
  unfold Engine.sendNumbered
  simp only
  split
  · exact hlayer
  · split
    · exact h.trans hlayer (h.transmit _ _ _)
    · exact hlayer

/-- A message that is repeated until it is acknowledged is numbered first. -/
theorem sendReliably (e : Engine) (hm : Permits Serves peer m) :
    R e (e.sendReliably peer m).2 := by
  have hpermitted : (e.incoming.send peer m).1.type = .confirmable →
      Serves peer (e.incoming.send peer m).1.token := by
    -- the message goes out as it is, or becomes a confirmable one
    rcases e.incoming.retyped_send peer m with hsame | ⟨hfull, hretyped⟩
    · rw [hsame]
      exact fun hconfirmable => hm.resolve_right fun hbare => hbare.2 hconfirmable
    · rw [hretyped]
      exact fun _ => hm.resolve_right fun hbare => hfull hbare.1
  exact h.trans (h.incoming e _)
    (h.sendNumbered { e with incoming := (e.incoming.send peer m).2 } hpermitted)

/-- A response goes out whole or as its first slice, and both have the same header. -/
theorem sendInBlocks (e : Engine) (hm : Permits Serves peer m) (request? : Option Message) :
    R e (e.sendInBlocks peer m request?).2 := by
  have hlayer := h.transfers e (e.transfers.send e.now peer m request?).2
  unfold Engine.sendInBlocks
  simp only
  split
  · exact hlayer
  · next hsent =>
    have hheader := Transfers.sameHeader_send hsent
    exact h.trans hlayer (h.sendReliably _ (hm.of_sameHeader hheader))

/-- Subscriptions and transfers see a message before it is numbered. -/
theorem sendThrough (e : Engine) (hm : Permits Serves peer m) (request? : Option Message) :
    R e (e.sendThrough peer m request?).2 := by
  have hlayer := h.subscribed e peer m request? fun hresponse =>
    hm.resolve_right fun hbare => Message.not_isEmpty_of_isResponse hresponse hbare.1
  unfold Engine.sendThrough
  simp only
  split
  · exact hlayer
  · next hsent =>
    have hheader := Subscriptions.sameHeader_send hsent
    exact h.trans hlayer (h.sendInBlocks _ (hm.of_sameHeader hheader) _)

/-- Notifications are sent, provided that the relation holds for what is noted of each. -/
theorem sendNotifications
    (hrecorded : ∀ e key id, R e { e with subscriptions := e.subscriptions.recordId key id })
    (notifications : List Notification)
    (hn : ∀ n ∈ notifications, Serves n.peer n.message.token) (e : Engine) :
    R e (e.sendNotifications notifications) := by
  induction notifications generalizing e with
  | nil => exact h.refl e
  | cons n rest ih =>
    have hsent := h.sendInBlocks e (.inl (hn n List.mem_cons_self)) none
    have hrest := ih fun n hmem => hn n (List.mem_cons_of_mem _ hmem)
    unfold Engine.sendNotifications
    simp only
    split
    · exact h.trans (h.trans hsent (hrecorded _ _ _)) (hrest _)
    · exact h.trans hsent (hrest _)

variable {request : Message}

/-- A response takes the token of its request. -/
theorem answer (e : Engine) (response : Message) (hserves : Serves peer request.token) :
    R e (e.answer peer request response) :=
  h.sendThrough e (permits_addressTo response hserves) _

/-- An observer that has just registered is answered with the state. -/
theorem answerState (e : Engine) (id : ResourceId) (hserves : Serves peer request.token) :
    R e (e.answerState peer request id) := by
  have hlayer := h.rendered e id request.accept?
  unfold Engine.answerState
  simp only
  split
  · exact h.trans hlayer (h.answer _ _ hserves)
  · split
    · exact h.trans hlayer (h.answer _ _ hserves)
    · exact h.trans hlayer (h.answer _ _ hserves)

/-- The reactions of a handler: to respond now, to respond later, or to change a resource. -/
theorem react (hserves : Serves peer request.token) (reaction : Reaction) (e : Engine) :
    R e (e.react peer request reaction) := by
  induction reaction generalizing e with
  | respond response => exact h.answer e _ hserves
  | fail failure => exact h.answer e _ hserves
  | render id => exact h.answerState e id hserves
  | abandon => exact h.answer e _ hserves
  | hold => exact h.refl e
  | after delay reaction ih =>
    unfold Engine.react
    simp only
    split
    · exact ih e
    · exact h.delayed e ⟨_, peer, request, reaction⟩ hserves

/-- A request that is served runs its handler, and what follows is a reaction. -/
theorem serve (e : Engine) (hserves : Serves peer m.token) : R e (e.serve peer m) := by
  unfold Engine.serve
  simp only
  split
  · exact h.trans (h.called e _) (h.react hserves _ _)
  · exact h.react hserves _ _

/-- Delayed responses are sent in the order in which they are due. -/
theorem resume (due : List Delayed) (hd : ∀ d ∈ due, Serves d.peer d.request.token)
    (e : Engine) : R e (e.resume due) := by
  induction due generalizing e with
  | nil => exact h.refl e
  | cons d rest ih =>
    exact h.trans (h.react (hd d List.mem_cons_self) d.reaction e)
      (ih (fun d hmem => hd d (List.mem_cons_of_mem _ hmem)) _)

/-- A malformed message is rejected or answered, whatever is served. -/
theorem reject (e : Engine) (peer : Endpoint) (fault : Datagram.DecodeFault) :
    R e (e.reject peer fault) := by
  cases fault with
  | malformed id? =>
    cases id? with
    | none => exact h.refl e
    | some id => exact h.transmit _ _ _
  | badOption id token type number fault =>
    cases type with
    | confirmable => exact h.transmit _ _ _
    | nonConfirmable =>
      -- the reply is not confirmable, so its token does not matter
      refine h.sendNumbered _ fun hconfirmable => ?_
      have hsame := (sameHeader_badOptionReply .nonConfirmable id token fault).type_eq
      cases hconfirmable.symm.trans hsame
    | acknowledgement => exact h.refl e
    | reset => exact h.refl e

/-- A weaker relation that can be chained as well. -/
theorem mono (hmono : ∀ e e', R e e' → R' e e')
    (htrans : ∀ {e e' e''}, R' e e' → R' e' e'' → R' e e'') : ServingFrame R' Serves where
  refl e := hmono _ _ (h.refl e)
  trans := htrans
  sent e peer m := hmono _ _ (h.sent e peer m)
  called e handler := hmono _ _ (h.called e handler)
  incoming e incoming := hmono _ _ (h.incoming e incoming)
  transfers e transfers := hmono _ _ (h.transfers e transfers)
  numbered e peer m hm := hmono _ _ (h.numbered e peer m hm)
  subscribed e peer m request? hm := hmono _ _ (h.subscribed e peer m request? hm)
  rendered e id accept? := hmono _ _ (h.rendered e id accept?)
  delayed e d hd := hmono _ _ (h.delayed e d hd)

end ServingFrame

/-! ## Everything else -/

/-- A request gets its token without anyone noticing. -/
theorem withToken_eq (e : Engine) (peer : Endpoint) (m : Message) :
    ∃ tokens, (e.withToken peer m).2 = { e with tokens } := by
  unfold withToken
  split
  · simp only
    split
    · exact ⟨_, rfl⟩
    · split <;> exact ⟨_, rfl⟩
  · exact ⟨_, rfl⟩

/-- A message that needs a token gets a free one, and only the tokens in use change. -/
theorem withToken_of (htokens : ∀ e tokens, R e { e with tokens }) (e : Engine)
    (peer : Endpoint) (m : Message) : R e (e.withToken peer m).2 := by
  obtain ⟨tokens, hwith⟩ := withToken_eq e peer m
  rw [hwith]
  exact htokens e tokens

/-- A relation that holds for what the events of a node are made of, as long as the requests
that are served have the given tokens, and besides the submission of requests and what
resources announce. -/
structure NodeFrame (R : Engine → Engine → Prop) (Serves : Endpoint → Token → Prop) : Prop
    extends ServingFrame R Serves where
  closed : ∀ e peer m, R e { e with outgoing := (e.outgoing.receive peer m).2.2 }
  heard : ∀ e peer m, R e { e with subscriptions := (e.subscriptions.receive peer m).2 }
  deliver : ∀ e peer m, R e (e.deliver peer m)
  concluded : ∀ e event, R e { e with subscriptions := e.subscriptions.settle event }
  failed : ∀ {e : Engine} {key : ConversationKey} {c : Conversation} (failure : SendFailure),
    e.conversations.get? key = some c → R e ((e.closeConversation key).reportFailure key c failure)
  deadlines : ∀ e deadlines, R e { e with deadlines }
  withdraw : ∀ e key, R e (e.withdraw key)
  withdrawing : ∀ e withdrawing, R e { e with withdrawing }
  repeated : ∀ e now, R e { e with outgoing := (e.outgoing.fire e.outboxOpen now).2 }
  resumeDue : ∀ e now, R e (resumeDue now e)
  stateSet : ∀ e id state, R e (e.setState id state)
  outboxOpen : ∀ e outboxOpen, R e { e with outboxOpen }
  under : ∀ e service, R e (e.under service)
  now : ∀ e now, R e { e with now }

namespace NodeFrame

variable (h : NodeFrame R Serves)

include h

/-! ### Withdrawals and outcomes -/

/-- The conversations to be withdrawn are withdrawn one by one. -/
theorem withdrawCollected (n : Nat) (e : Engine) : R e (withdrawCollected n e) := by
  induction n generalizing e with
  | zero => exact h.refl e
  | succ n ih =>
    unfold Engine.withdrawCollected
    split
    · exact h.refl e
    · exact h.trans (h.trans (h.withdrawing e _) (h.withdraw _ _)) (ih _)

/-- Books are settled by withdrawing what was collected. -/
theorem settle (e : Engine) : R e e.settle := h.withdrawCollected _ e

/-- To cancel an observation, its conversation is closed. -/
theorem cancel (e : Engine) (key : ConversationKey) : R e (e.cancel key) :=
  h.trans (h.withdraw e key) (h.settle _)

/-- A request whose time is over is given up. -/
theorem expire (e : Engine) (key : ConversationKey) (number : Nat) :
    R e (e.expire key number) := by
  unfold Engine.expire
  split
  · exact h.refl e
  · next hc =>
    split
    · exact h.failed _ hc
    · exact h.refl e

/-- All requests that are due are given up. -/
theorem expireAll (due : List Deadline) (e : Engine) : R e (e.expireAll due) := by
  induction due generalizing e with
  | nil => exact h.refl e
  | cons d rest ih => exact h.trans (h.expire e d.key d.number) (ih _)

/-- An exchange that fails ends the conversation and the subscription that it belongs to. -/
theorem conclude (e : Engine) (event : ExchangeEvent) : R e (e.conclude event) := by
  have hconcluded := h.concluded e event
  unfold Engine.conclude
  simp only
  split
  · exact hconcluded
  · next hc =>
    split
    · exact h.trans hconcluded (h.failed _ hc)
    · split
      · exact hconcluded
      · split
        · exact h.trans hconcluded (h.expire _ _ _)
        · exact h.trans hconcluded (h.deadlines _ _)

/-- The failures of several exchanges are dealt with in turn. -/
theorem concludeAll (events : List ExchangeEvent) (e : Engine) :
    R e (e.concludeAll events) := by
  induction events generalizing e with
  | nil => exact h.refl e
  | cons event rest ih => exact h.trans (h.conclude e event) (ih _)

/-! ### Received messages

A request that is to be served must have one of the tokens; of anything else nothing is
asked. -/

/-- A request that is accepted is served, and a response is delivered. -/
theorem accept (e : Engine) (hm : m.isRequest = true → Serves peer m.token) :
    R e (e.accept peer m) := by
  unfold Engine.accept
  split
  · next hmeaning =>
    refine h.serve e (hm ?_)
    simp [Message.isRequest, Code.isRequest, Code.method?, hmeaning]
  · exact h.deliver e peer m
  · exact h.refl e
  · exact h.refl e

omit h in
/-- What a layer hands on is a request only if it got one, under the same token. -/
theorem serves_of_follows (hm : m.isRequest = true → Serves peer m.token)
    (hfollows : (Verdict.forward m').Follows m) :
    m'.isRequest = true → Serves peer m'.token := by
  obtain ⟨hcode, htoken⟩ := hfollows
  unfold Message.isRequest at hm ⊢
  rw [hcode, htoken]
  exact hm

/-- Subscriptions answer a message, or let it pass. -/
theorem receiveObserved (e : Engine) (hm : m.isRequest = true → Serves peer m.token) :
    R e (e.receiveObserved peer m) := by
  have hlayer := h.heard e peer m
  have hfollows := e.subscriptions.follows_receive peer m
  unfold Engine.receiveObserved
  simp only
  split
  · next hverdict =>
    rw [hverdict] at hfollows
    exact h.trans hlayer (h.accept _ (serves_of_follows hm hfollows))
  · exact hlayer
  · next hverdict =>
    rw [hverdict] at hfollows
    obtain ⟨hrequest, htoken⟩ := hfollows
    exact h.trans hlayer (h.sendInBlocks _ (.inl (htoken ▸ hm hrequest)) _)

/-- Transfers take a piece, serve a slice, or let the message pass. -/
theorem receiveInBlocks (e : Engine) (hm : m.isRequest = true → Serves peer m.token) :
    R e (e.receiveInBlocks peer m) := by
  have hlayer := h.transfers e (e.transfers.receive e.now peer m).2
  have hfollows := e.transfers.follows_receive e.now peer m
  unfold Engine.receiveInBlocks
  simp only
  split
  · next hverdict =>
    rw [hverdict] at hfollows
    exact h.trans hlayer (h.receiveObserved _ (serves_of_follows hm hfollows))
  · exact hlayer
  · next hverdict =>
    rw [hverdict] at hfollows
    obtain ⟨hrequest, htoken⟩ := hfollows
    exact h.trans hlayer (h.sendReliably _ (.inl (htoken ▸ hm hrequest)))

/-- The exchanges take an acknowledgement or a duplicate, or let the message pass. -/
theorem receiveReliably (e : Engine) (hm : m.isRequest = true → Serves peer m.token) :
    R e (e.receiveReliably peer m) := by
  have hlayer := h.trans (h.incoming e (e.incoming.receive e.now peer m).2.2)
    (h.transmitAll ((e.incoming.receive e.now peer m).2.1.map (peer, ·)) _)
  have hfollows := e.incoming.follows_receive e.now peer m
  unfold Engine.receiveReliably
  simp only
  split
  · next hverdict =>
    rw [hverdict] at hfollows
    exact h.trans hlayer (h.receiveInBlocks _ (serves_of_follows hm hfollows))
  · exact hlayer
  · next hverdict =>
    rw [hverdict] at hfollows
    obtain ⟨hrequest, htoken⟩ := hfollows
    exact h.trans hlayer (h.sendNumbered _ fun _ => htoken ▸ hm hrequest)

/-- A message goes through the layers from below. -/
theorem absorb (e : Engine) (hm : m.isRequest = true → Serves peer m.token) :
    R e (e.absorb peer m) := by
  have hlayer := h.closed e peer m
  have hfollows := e.outgoing.follows_receive peer m
  unfold Engine.absorb
  simp only
  split
  · next hverdict =>
    rw [hverdict] at hfollows
    exact h.trans hlayer (h.receiveReliably _ (serves_of_follows hm hfollows))
  · exact hlayer
  · exact h.trans hlayer (h.transmit _ _ _)

/-- After a message was received, what it ended is settled. -/
theorem receive (e : Engine) (hm : m.isRequest = true → Serves peer m.token) :
    R e (e.receive peer m) := by
  rw [receive_eq_absorb]
  exact h.trans (h.trans (h.absorb e hm) (h.concludeAll _ _)) (h.settle _)

/-! ### The passing of time -/

/-- Messages that are due are repeated. -/
theorem repeatDue (now : Instant) (e : Engine) : R e (repeatDue now e) :=
  h.trans (h.repeated e now) (h.transmitAll _ _)

/-- Acknowledgements that are due are sent, and old exchanges forgotten. -/
theorem sweepDue (now : Instant) (e : Engine) : R e (sweepDue now e) := by
  unfold Engine.sweepDue
  split
  · exact h.trans (h.incoming e _) (h.transmitAll _ _)
  · exact h.refl e

/-- Requests that are due are given up. -/
theorem expireDue (now : Instant) (e : Engine) : R e (expireDue now e) :=
  h.trans (h.deadlines e _) (h.expireAll _ _)

/-- When timers fire, all that is due is done, in an order of its own. -/
theorem fire (now : Instant) (e : Engine) : R e (fire now e) := by
  -- the parts in the order in which they happen at one time
  have hrepeated := h.trans (h.now e now) (h.repeatDue now _)
  have hconcluded := h.trans hrepeated
    (h.concludeAll (e.outgoing.fire e.outboxOpen now).1.events _)
  have hresumed := h.trans hconcluded (h.trans (h.sweepDue now _) (h.resumeDue _ now))
  rw [fire_eq]
  exact h.trans (h.trans hresumed (h.expireDue now _)) (h.settle _)

/-! ### Requests of this node -/

/-- A request is submitted, provided that the relation holds for the conversation that is
opened and for what the requester is told if the request does not go out. -/
theorem submit (e : Engine) (peer : Endpoint) (m : Message) (r : Requester)
    (htokens : ∀ e tokens, R e { e with tokens })
    (hopen : ∀ e key, R e (e.openConversation key r))
    (hclose : ∀ e key, R e (e.closeConversation key))
    (hunsent : ∀ e failure, R e (e.reportUnsent peer r failure))
    (hm : ∀ sent, (e.withToken peer m).1 = .ok sent → Serves peer sent.token) :
    R e (e.submit peer m r).2 := by
  have htokened := withToken_of htokens e peer m
  unfold Engine.submit
  simp only
  split
  · exact h.trans (h.trans htokened (hunsent _ _)) (h.settle _)
  · next sent hsent =>
    have hgone := h.trans (h.trans htokened (hopen _ ⟨peer, sent.token⟩))
      (h.sendThrough _ (.inl (hm sent hsent)) none)
    split
    · exact h.trans hgone (h.settle _)
    · exact h.trans (h.trans (h.trans hgone (hclose _ _)) (hunsent _ _)) (h.settle _)

/-! ### Events -/

/-- **A relation that holds for what events are made of holds for every event.** -/
theorem step (e : Engine) (event : Event)
    (hsubmit : ∀ peer m r, event = .submit peer m r → R e (e.submit peer m r).2)
    (hserved : ∀ peer m, event = .handle peer (.ok m) ∨ event = .absorb peer m →
      m.isRequest = true → Serves peer m.token)
    (hannounced : ∀ id change, event = .announce id change → R e (e.announce id change)) :
    R e (e.step event) := by
  cases event with
  | submit peer m r => exact hsubmit peer m r rfl
  | cancel key => exact h.cancel e key
  | handle peer decoded =>
    cases decoded with
    | ok m => exact h.receive e (hserved peer m (.inl rfl))
    | error fault => exact h.reject e peer fault
  | absorb peer m => exact h.absorb e (hserved peer m (.inr rfl))
  | conclude event => exact h.conclude e event
  | repeatDue now => exact h.repeatDue now e
  | sweepDue now => exact h.sweepDue now e
  | resumeDue now => exact h.resumeDue e now
  | expire key number => exact h.expire e key number
  | settle => exact h.settle e
  | announce id change => exact hannounced id change rfl
  | setState id state => exact h.stateSet e id state
  | closeOutbox => exact h.outboxOpen e false
  | serve service => exact h.under e service
  | fire now => exact h.fire now e
  | pass now => exact h.now e now

end NodeFrame

end Coap.Engine
