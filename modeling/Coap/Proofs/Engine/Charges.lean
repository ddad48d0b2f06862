/-
# Whom the outcome of an exchange is charged to

The outcome of an exchange names its peer, token and message ID.  A failure ends the
conversation under that peer and token, and an acknowledgement sets it a deadline; the ID is
not looked at.  This file says which conversations and subscriptions an outcome changes, and
when the conversation that is changed is that of the request that opened the exchange: as long
as no other exchange with the peer carries the token, and no longer.
-/
import Coap.Proofs.Engine.Conversations
import Coap.Proofs.Engine.Origins

namespace Coap

/-- The outcome of the exchange that a message opened. -/
def ExchangeEvent.ofOpen (k : MessageKey) (m : Message) (outcome : ExchangeOutcome) :
    ExchangeEvent :=
  ⟨k.peer, m.token, k.id, outcome⟩

namespace Subscriptions

variable {s : Subscriptions} {event : ExchangeEvent} {key : ConversationKey}

theorem get?_remove_of_ne {other : ConversationKey} (h : other ≠ key) :
    (s.remove other).entries.get? key = s.entries.get? key := by
  unfold remove
  split
  · rfl
  · rw [entries_unindex, Table.get?_erase, if_neg h]

/-- Only the subscription under its peer and token is ended by an outcome, by a failure of its
latest notification. -/
theorem of_get?_settle_ne (h : (s.settle event).entries.get? key ≠ s.entries.get? key) :
    (⟨event.peer, event.token⟩ : ConversationKey) = key ∧ event.outcome.failure?.isSome = true ∧
      (s.entries.get? key).bind (·.lastId?) = some event.id := by
  unfold settle at h
  split at h
  · exact absurd rfl h
  · next failure hfailure =>
    simp only at h
    split at h
    · next x hx =>
      split at h
      · next hlast =>
        have hkey : (⟨event.peer, event.token⟩ : ConversationKey) = key :=
          Classical.byContradiction fun hne => h (get?_remove_of_ne hne)
        subst hkey
        exact ⟨rfl, by simp [hfailure], by simpa [hx] using hlast⟩
      · exact absurd rfl h
    · exact absurd rfl h

theorem settle_of_none (h : s.entries.get? ⟨event.peer, event.token⟩ = none) :
    s.settle event = s := by
  unfold settle
  split
  · rfl
  · simp [h]

end Subscriptions

namespace Engine

variable {e e' : Engine} {event : ExchangeEvent} {key k : ConversationKey} {c : Conversation}

/-! ## What an outcome changes -/

/-- The deadlines that are set for a conversation. -/
def deadlinesOf (e : Engine) (key : ConversationKey) : List Deadline :=
  e.deadlines.filter (·.key = key)

/-- An outcome is charged to a conversation: it ends the conversation, or sets a deadline
for it. -/
def Charges (e : Engine) (event : ExchangeEvent) (key : ConversationKey) : Prop :=
  (e.conclude event).conversations.get? key ≠ e.conversations.get? key ∨
    (e.conclude event).deadlinesOf key ≠ e.deadlinesOf key

/-- An expiry leaves the conversations under other keys alone. -/
theorem get?_expire_of_ne (h : key ≠ k) (number : Nat) :
    (e.expire key number).conversations.get? k = e.conversations.get? k := by
  unfold expire
  split
  · rfl
  · split
    · rw [get?_close_reportFailure, if_neg h]
    · rfl

/-- An outcome is charged to no conversation but the one under its peer and token. -/
theorem Charges.key_eq (h : e.Charges event key) :
    (⟨event.peer, event.token⟩ : ConversationKey) = key := by
  refine Classical.byContradiction fun hne => ?_
  have hsame : (e.conclude event).conversations.get? key = e.conversations.get? key ∧
      (e.conclude event).deadlinesOf key = e.deadlinesOf key := by
    unfold conclude
    simp only
    split
    · exact ⟨rfl, rfl⟩
    · split
      · refine ⟨by rw [get?_close_reportFailure, if_neg hne], ?_⟩
        obtain ⟨_, _, _, _, hframe⟩ := close_reportFailure_frame _ _ _ _
        rw [hframe]
        rfl
      · split
        · exact ⟨rfl, rfl⟩
        · split
          · refine ⟨by rw [get?_expire_of_ne hne], ?_⟩
            obtain ⟨_, _, _, _, hframe⟩ := expire_frame _ _ _
            rw [hframe]
            rfl
          · exact ⟨rfl, by simp [deadlinesOf, hne]⟩
  exact h.elim (fun hconv => hconv hsame.1) (fun hdue => hdue hsame.2)

/-- An outcome is charged to the conversation under its peer and token if it is a failure, or
if nothing has been heard of the request yet. -/
theorem charges_iff (hc : e.conversations.get? key = some c) :
    e.Charges event key ↔ (⟨event.peer, event.token⟩ : ConversationKey) = key ∧
      (event.outcome.failure?.isSome = true ∨ c.latest? = none) := by
  constructor
  · intro h
    obtain rfl := h.key_eq
    refine ⟨rfl, Classical.byContradiction fun hneither => ?_⟩
    obtain ⟨hgood, hheard⟩ := not_or.1 hneither
    have hsame : e.conclude event =
        { e with subscriptions := e.subscriptions.settle event } := by
      have hnone : event.outcome.failure? = none := by simpa using hgood
      have hsome : c.latest?.isSome = true := Option.isSome_iff_ne_none.2 hheard
      simp [conclude, hc, hnone, hsome]
    rw [Charges, hsame] at h
    exact h.elim (fun hconv => hconv rfl) (fun hdue => hdue rfl)
  · rintro ⟨rfl, hcharged⟩
    -- a failure ends the conversation, and an acknowledgement sets it a deadline
    cases hfailure : event.outcome.failure? with
    | some failure =>
      refine .inl ?_
      have hended : (e.conclude event).conversations.get? ⟨event.peer, event.token⟩ = none := by
        simp only [conclude, hc, hfailure]
        rw [get?_close_reportFailure, if_pos rfl]
      rw [hended, hc]
      simp
    | none =>
      have hunheard : c.latest? = none := hcharged.resolve_left (by simp [hfailure])
      by_cases hdue : Instant.tick (e.now + e.responseTimeout) ≤ e.now
      · -- the deadline has passed as soon as it is set
        refine .inl ?_
        have hended :
            (e.conclude event).conversations.get? ⟨event.peer, event.token⟩ = none := by
          simp only [conclude, hc, hfailure, hunheard, hdue, expire]
          simp [get?_close_reportFailure]
        rw [hended, hc]
        simp
      · refine .inr fun hsame => ?_
        have hset : (e.conclude event).deadlinesOf ⟨event.peer, event.token⟩ =
            e.deadlinesOf ⟨event.peer, event.token⟩ ++
              [⟨Instant.tick (e.now + e.responseTimeout), ⟨event.peer, event.token⟩,
                c.number⟩] := by
          simp [conclude, hc, hfailure, hunheard, hdue, deadlinesOf]
        rw [hset] at hsame
        simp at hsame

theorem conclude_subscriptions (e : Engine) (event : ExchangeEvent) :
    (e.conclude event).subscriptions = e.subscriptions.settle event := by
  unfold conclude
  simp only
  split
  · rfl
  · split
    · obtain ⟨_, _, _, _, hframe⟩ := close_reportFailure_frame _ _ _ _
      rw [hframe]
    · split
      · rfl
      · split
        · obtain ⟨_, _, _, _, hframe⟩ := expire_frame _ _ _
          rw [hframe]
        · rfl

/-! ## The exchange of a request -/

variable {peer : Endpoint} {m : Message} {r : Requester} {sent : Message} {id : MessageId}

/-- A request goes out, with a token and under an ID. -/
structure GoesOut (e : Engine) (peer : Endpoint) (m : Message) (r : Requester) (sent : Message)
    (id : MessageId) : Prop where
  tokened : (e.withToken peer m).1 = .ok sent
  numbered : (((e.withToken peer m).2.openConversation ⟨peer, sent.token⟩ r).sendThrough peer
    sent none).1 = .ok id

/-- Sending opens no exchange but one with a peer, under an ID, and changes nothing of what is
served. -/
structure SendsUnder (peer : Endpoint) (id : MessageId) (e e' : Engine) : Prop where
  subscriptions : e'.subscriptions = e.subscriptions
  delayed : e'.delayed = e.delayed
  exchanges : ∀ k m, e'.outgoing.openMessage? k = some m →
    e.outgoing.openMessage? k = some m ∨ k = ⟨peer, id⟩

theorem SendsUnder.transmit (h : SendsUnder peer id e e') (m : Message) :
    SendsUnder peer id e (e'.transmit peer m) := by
  unfold Engine.transmit
  split
  · exact ⟨h.subscriptions, h.delayed, h.exchanges⟩
  · exact h

theorem sendsUnder_sendNumbered (h : (e.sendNumbered peer m).1 = .ok id) :
    SendsUnder peer id e (e.sendNumbered peer m).2 := by
  unfold sendNumbered at h ⊢
  simp only at h ⊢
  cases hresult : (e.outgoing.send e.now peer m).1 with
  | error failure => simp [hresult] at h
  | ok m' =>
    have hlayer : SendsUnder peer m'.id e
        { e with outgoing := (e.outgoing.send e.now peer m).2 } := by
      refine ⟨rfl, rfl, fun k opened hopened => ?_⟩
      refine (Outgoing.openMessage?_send hopened).imp_right ?_
      rintro ⟨-, own, hown, rfl, rfl⟩
      obtain rfl := Except.ok.inj (hresult.symm.trans hown)
      rfl
    simp only [hresult] at h ⊢
    split at h
    · obtain rfl := Except.ok.inj h
      rw [if_pos ‹_›]
      exact hlayer.transmit m'
    · cases h

theorem sendsUnder_sendReliably (h : (e.sendReliably peer m).1 = .ok id) :
    SendsUnder peer id e (e.sendReliably peer m).2 := by
  obtain ⟨hsubscriptions, hdelayed, hexchanges⟩ := sendsUnder_sendNumbered h
  exact ⟨hsubscriptions, hdelayed, hexchanges⟩

theorem sendsUnder_sendInBlocks {request? : Option Message}
    (h : (e.sendInBlocks peer m request?).1 = .ok id) :
    SendsUnder peer id e (e.sendInBlocks peer m request?).2 := by
  unfold sendInBlocks at h ⊢
  simp only at h ⊢
  cases hresult : (e.transfers.send e.now peer m request?).1 with
  | error failure => simp [hresult] at h
  | ok m' =>
    simp only [hresult] at h ⊢
    obtain ⟨hsubscriptions, hdelayed, hexchanges⟩ := sendsUnder_sendReliably h
    exact ⟨hsubscriptions, hdelayed, hexchanges⟩

/-- A message that answers no request passes the layer of subscriptions as it is. -/
theorem sendsUnder_sendThrough (h : (e.sendThrough peer m none).1 = .ok id) :
    SendsUnder peer id e (e.sendThrough peer m none).2 := by
  have hpassed : e.subscriptions.send peer m none = (.ok m, e.subscriptions) := rfl
  unfold sendThrough at h ⊢
  simp only [hpassed] at h ⊢
  exact sendsUnder_sendInBlocks h

theorem submit_of_goesOut (h : e.GoesOut peer m r sent id) :
    (e.submit peer m r).2 =
      (((e.withToken peer m).2.openConversation ⟨peer, sent.token⟩ r).sendThrough peer sent
        none).2.settle := by
  unfold submit
  simp only [h.tokened, h.numbered]

/-- No open exchange has the peer and token of a key. -/
def NoneOpen (e : Engine) (key : ConversationKey) : Prop :=
  ∀ x ∈ e.outgoing.exchanges.entries, (⟨x.1.peer, x.2.message.token⟩ : ConversationKey) ≠ key

theorem NoneOpen.ne {k : MessageKey} (h : e.NoneOpen key)
    (hm : e.outgoing.openMessage? k = some m) : (⟨k.peer, m.token⟩ : ConversationKey) ≠ key := by
  obtain ⟨x, hx, rfl⟩ := Option.map_eq_some_iff.1 hm
  exact h (k, x) (Table.mem_entries_iff.2 hx)

/-- Once a request has gone out under a token that nothing else uses, the exchange under its ID
is the only one that can be open under the token. -/
theorem GoesOut.opens (h : e.GoesOut peer m r sent id)
    (hunserved : e.Unserved ⟨peer, sent.token⟩) (hnone : e.NoneOpen ⟨peer, sent.token⟩) :
    (e.submit peer m r).2.Unserved ⟨peer, sent.token⟩ ∧
      ∀ k m', (e.submit peer m r).2.outgoing.openMessage? k = some m' →
        (⟨k.peer, m'.token⟩ : ConversationKey) = ⟨peer, sent.token⟩ → k = ⟨peer, id⟩ := by
  let opened := (e.withToken peer m).2.openConversation ⟨peer, sent.token⟩ r
  have htokened : Avoids ⟨peer, sent.token⟩ e (e.withToken peer m).2 :=
    withToken_of (fun _ _ => .of_same rfl rfl rfl) e peer m
  have hopened : Avoids ⟨peer, sent.token⟩ e opened :=
    htokened.trans (.openConversation _ _ r)
  have hsends : SendsUnder peer id opened (opened.sendThrough peer sent none).2 :=
    sendsUnder_sendThrough h.numbered
  have hsettled : Avoids ⟨peer, sent.token⟩ (opened.sendThrough peer sent none).2
      (opened.sendThrough peer sent none).2.settle := Avoids.frame.settle _
  obtain ⟨⟨hsubscriptions, hdelayed⟩, hopens⟩ := hopened hunserved
  obtain ⟨hunserved', hopens'⟩ := hsettled
    ⟨by rwa [hsends.subscriptions], by rwa [hsends.delayed]⟩
  rw [submit_of_goesOut h]
  refine ⟨hunserved', fun k m' hm' hkey => ?_⟩
  -- an exchange under the token was open before it all, or is that of the request
  refine (hsends.exchanges k m' (hopens' k m' hm' hkey)).resolve_left fun hbefore => ?_
  exact hnone.ne (hopens k m' hbefore hkey) hkey

/-! ## The outcomes that exchanges have -/

/-- The outcomes of exchanges that an event brings. -/
def published (e : Engine) : Event → List ExchangeEvent
  | .handle peer (.ok m) | .absorb peer m => (e.outgoing.receive peer m).2.1.toList
  | .fire now | .repeatDue now => (e.outgoing.fire e.outboxOpen now).1.events
  | _ => []

theorem open_of_received (h : event ∈ (e.outgoing.receive peer m).2.1.toList) :
    ∃ m, e.outgoing.openMessage? ⟨event.peer, event.id⟩ = some m ∧ m.token = event.token := by
  have hcases := Outgoing.receive_cases e.outgoing peer m
  generalize (e.outgoing.receive peer m).2.1 = event? at hcases h
  generalize (e.outgoing.receive peer m).2.2 = s at hcases
  cases hcases with
  | ignored => simp at h
  | closed hx =>
    obtain rfl := List.mem_singleton.1 h
    exact ⟨_, Option.map_eq_some_iff.2 ⟨_, hx, rfl⟩, rfl⟩

theorem open_of_fired {now : Instant} (h : event ∈ (e.outgoing.fire e.outboxOpen now).1.events) :
    ∃ m, e.outgoing.openMessage? ⟨event.peer, event.id⟩ = some m ∧ m.token = event.token := by
  obtain ⟨⟨k, x⟩, hdue, htimeout⟩ := List.mem_filterMap.1 h
  have hx : e.outgoing.exchanges.get? k = some x := by
    rw [← Outgoing.exchanges_purgeIds]
    exact Table.mem_entries_iff.1 (List.mem_filter.1 hdue).1
  unfold OpenExchange.timeout? at htimeout
  split at htimeout
  · cases htimeout
  · obtain rfl := Option.some.inj htimeout
    exact ⟨_, Option.map_eq_some_iff.2 ⟨_, hx, rfl⟩, rfl⟩

/-- An outcome is that of an exchange that was open until then. -/
theorem open_of_published {happening : Event} (h : event ∈ e.published happening) :
    ∃ m, e.outgoing.openMessage? ⟨event.peer, event.id⟩ = some m ∧ m.token = event.token := by
  unfold published at h
  split at h
  · exact open_of_received h
  · exact open_of_received h
  · exact open_of_fired h
  · exact open_of_fired h
  · cases h

/-! ## Charged to the right request -/

/-- **Whom an outcome is charged to.**  A request is submitted at any time and goes out, and
whatever may happen happens.  Of the exchanges that are open then, only that of the request can
have an outcome that is charged to the conversation under its token, exactly if no other one
carries the token.  This is so as long as nobody else uses the token: if nothing was being
served and no exchange was open under it when the request was submitted, and no further request
comes under it, then each outcome that is charged to the conversation, at once or later, is that
of the exchange of the request, and leaves the subscriptions alone.  In any case an outcome is
charged to no conversation under another token, and ends no subscription except under its own
token and by the failure of the latest notification. -/
theorem charged_to_own_request (c : Config) (chances : Chances) (service : Service)
    (resources : List (String × Resource)) (before after : List Event) (peer : Endpoint)
    (m : Message) (r : Requester) :
    let e := (start c chances service resources).run before
    let submitted := e.step (.submit peer m r)
    let now := submitted.run after
    ∀ sent id, e.GoesOut peer m r sent id →
      let key : ConversationKey := ⟨peer, sent.token⟩
      let Own (k : MessageKey) (m : Message) : Prop :=
        k = ⟨peer, id⟩ ∧ submitted.outgoing.openMessage? k = some m
      ((now.conversations.get? key).isSome = true →
        ((∀ k m outcome, now.outgoing.openMessage? k = some m →
            now.Charges (.ofOpen k m outcome) key → Own k m) ↔
          ∀ k m, now.outgoing.openMessage? k = some m →
            (⟨k.peer, m.token⟩ : ConversationKey) = key → Own k m)) ∧
      (e.Unserved key → e.NoneOpen key → submitted.NoneRequests key after →
        ∀ earlier event later, after = earlier ++ event :: later →
          ∀ outcome ∈ (submitted.run earlier).published event,
            (⟨outcome.peer, outcome.token⟩ : ConversationKey) = key →
            (∃ m, Own ⟨outcome.peer, outcome.id⟩ m ∧
              (submitted.run earlier).outgoing.openMessage? ⟨outcome.peer, outcome.id⟩ = some m) ∧
            (now.conclude outcome).subscriptions = now.subscriptions) ∧
      ∀ outcome key',
        (now.Charges outcome key' → (⟨outcome.peer, outcome.token⟩ : ConversationKey) = key') ∧
        ((now.conclude outcome).subscriptions.entries.get? key' ≠
            now.subscriptions.entries.get? key' →
          (⟨outcome.peer, outcome.token⟩ : ConversationKey) = key' ∧
            outcome.outcome.failure?.isSome = true ∧
            (now.subscriptions.entries.get? key').bind (·.lastId?) = some outcome.id) := by
  intro e submitted now sent id hout key Own
  refine ⟨fun hopen => ⟨fun h k m hm hkey => ?_, fun h k m outcome hm hcharged => ?_⟩,
    fun hunserved hnone hrequests earlier event later hafter outcome hpublished hkey => ?_,
    fun outcome key' => ⟨Charges.key_eq, fun hchanged => ?_⟩⟩
  · -- the exchange may be rejected
    obtain ⟨c, hc⟩ := Option.isSome_iff_exists.1 hopen
    exact h k m .reset hm ((charges_iff hc).2 ⟨hkey, .inl rfl⟩)
  · exact h k m hm hcharged.key_eq
  · obtain ⟨hunserved', hown⟩ := hout.opens hunserved hnone
    obtain ⟨m', hm', htoken⟩ := open_of_published hpublished
    rw [← htoken] at hkey
    constructor
    · -- the exchange has been open since the request went out
      rw [hafter] at hrequests
      obtain ⟨-, hopens⟩ := Avoids.run earlier hrequests.append_left hunserved'
      have hbefore := hopens _ m' hm' hkey
      exact ⟨m', ⟨hown _ m' hbefore hkey, hbefore⟩, hm'⟩
    · rw [htoken] at hkey
      obtain ⟨hunserved'', -⟩ := Avoids.run after hrequests hunserved'
      rw [conclude_subscriptions, Subscriptions.settle_of_none]
      rw [hkey]
      exact hunserved''.subscriptions
  · rw [conclude_subscriptions] at hchanged
    exact Subscriptions.of_get?_settle_ne hchanged

/-- A peer observes a resource under one token, and is sent a request under another one while
a notification waits for its acknowledgement.  The acknowledgement of the request is charged
to the request, and a rejection of the notification would not be. -/
theorem charged_beside_notification :
    let peer : Endpoint := ⟨1⟩
    let observe : Message :=
      { type := .confirmable, code := .request .get, id := 10, token := ⟨[2], by decide⟩,
        options := ⟨[⟨.observe, .unsigned 0⟩, ⟨.uriPath, .text "temp"⟩], by decide⟩ }
    let request : Message :=
      { type := .confirmable, code := .request .get, id := 0, token := ⟨[1], by decide⟩ }
    let key : ConversationKey := ⟨peer, request.token⟩
    let reader : Requester := ⟨"reader", .full⟩
    let chances : Chances :=
      ⟨.constant 1000, .constant (.ofNat 100), .constant 0, .constant 0⟩
    let resources : List (String × Resource) :=
      [("temp", { confirmable := true, state := fun _ => .ok { payload := [0x31] } })]
    let before : List Event := [.handle peer (.ok observe), .announce 0 (.changed none)]
    let e := (start .standard chances (fun _ => { reaction := .render 0 }) resources).run before
    let submitted := e.step (.submit peer request reader)
    let arrival : Event := .absorb peer (.emptyAck 1001)
    let now := submitted.run [arrival]
    let acknowledged : ExchangeEvent := ⟨peer, request.token, 1001, .acknowledged⟩
    let rejected : ExchangeEvent := ⟨peer, observe.token, 1000, .reset⟩
    (e.GoesOut peer request reader request 1001 ∧ e.Unserved key ∧ e.NoneOpen key ∧
      submitted.NoneRequests key [arrival]) ∧
    (acknowledged ∈ submitted.published arrival ∧ now.Charges acknowledged key) ∧
    (now.conclude acknowledged).subscriptions = now.subscriptions ∧
    (now.outgoing.openMessage? ⟨peer, 1000⟩).isSome = true ∧ ¬ now.Charges rejected key := by
  intro peer observe request key reader chances resources before e submitted arrival now
    acknowledged rejected
  have hout : e.GoesOut peer request reader request 1001 :=
    ⟨by decide +kernel, by decide +kernel⟩
  have hunserved : e.Unserved key := ⟨by decide +kernel, by decide +kernel⟩
  have hnone : e.NoneOpen key := by
    unfold NoneOpen
    decide +kernel
  have hrequests : submitted.NoneRequests key [arrival] :=
    ⟨fun h => absurd h.1 (by decide), trivial⟩
  have hpublished : acknowledged ∈ submitted.published arrival := by decide +kernel
  have hunheard : (now.conversations.get? key).map (·.latest?) = some none := by decide +kernel
  obtain ⟨c, hc, hlatest⟩ := Option.map_eq_some_iff.1 hunheard
  obtain ⟨-, hown, hothers⟩ := charged_to_own_request .standard chances
    (fun _ => { reaction := .render 0 }) resources before [arrival] peer request reader request
    1001 hout
  obtain ⟨-, hspared⟩ := hown hunserved hnone hrequests [] arrival [] rfl acknowledged hpublished
    rfl
  refine ⟨⟨hout, hunserved, hnone, hrequests⟩, ⟨hpublished, (charges_iff hc).2 ⟨rfl, .inr hlatest⟩⟩,
    hspared, by decide +kernel, fun hcharged => ?_⟩
  exact absurd ((hothers rejected key).1 hcharged) (by decide)

/-- **Charged to the wrong request.**  A request is answered without an acknowledgement, so
that it goes on being repeated, and another request is sent under its token.  When the peer
rejects the first one, which it no longer knows, the second one is charged with it. -/
theorem charged_with_earlier_request :
    let peer : Endpoint := ⟨1⟩
    let request : Message :=
      { type := .confirmable, code := .request .get, id := 0, token := ⟨[1], by decide⟩ }
    let response : Message :=
      { type := .nonConfirmable, code := .response .content, id := 7, token := request.token }
    let key : ConversationKey := ⟨peer, request.token⟩
    let second : Requester := ⟨"second", .full⟩
    let chances : Chances :=
      ⟨.constant 1000, .constant (.ofNat 100), .constant 0, .constant 0⟩
    let e := (start .standard chances (fun _ => { reaction := .hold }) []).run
      [.submit peer request ⟨"first", .full⟩, .handle peer (.ok response)]
    let now := e.step (.submit peer request second)
    e.conversations.get? key = none ∧ e.GoesOut peer request second request 1001 ∧
    now.outgoing.openMessage? ⟨peer, 1000⟩ = some { request with id := 1000 } ∧
    now.Charges (.ofOpen ⟨peer, 1000⟩ { request with id := 1000 } .reset) key ∧
    (now.step (.handle peer (.ok (.resetOf 1000)))).reportsTo "second" = [.reset] := by
  intro peer request response key second chances e now
  have hout : e.GoesOut peer request second request 1001 :=
    ⟨by decide +kernel, by decide +kernel⟩
  have hopen : (now.conversations.get? key).isSome = true := by decide +kernel
  obtain ⟨c, hc⟩ := Option.isSome_iff_exists.1 hopen
  refine ⟨?_, hout, by decide +kernel, (charges_iff hc).2 ⟨rfl, .inl rfl⟩, by decide +kernel⟩
  exact Option.isNone_iff_eq_none.1 (by decide +kernel)

end Engine

end Coap
