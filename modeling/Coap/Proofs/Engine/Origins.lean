/-
# Where exchanges come from

A node opens an exchange with every confirmable message: with a request of its own, with a
response to a request, or with a notification.  The last two carry the token of a request that
the peer has sent.  So while no request comes under a token, neither one that this node sends
nor one that it is to serve, nothing that happens to the node opens an exchange under the token,
unless something was being served under it before.
-/
import Coap.Proofs.Engine.Conversations

namespace Coap

/-! ## Open exchanges and their messages -/

/-- An exchange that goes on repeats the message it was opened with. -/
theorem OpenExchange.message_of_renew {policy : Transmission} {outboxOpen : Bool}
    {now : Instant} {x x' : OpenExchange} (h : x.renew? policy outboxOpen now = some x') :
    x'.message = x.message := by
  unfold renew? at h
  split at h
  · obtain rfl := Option.some.inj h
    rfl
  · cases h

namespace Outgoing

variable {s : Outgoing} {peer : Endpoint} {k : MessageKey} {m m' : Message}

/-- The message with which an exchange was opened that is still open. -/
def openMessage? (s : Outgoing) (k : MessageKey) : Option Message :=
  (s.exchanges.get? k).map (·.message)

/-- Only a confirmable message opens an exchange, with the ID it gets. -/
theorem openMessage?_send {now : Instant} (h : (s.send now peer m).2.openMessage? k = some m') :
    s.openMessage? k = some m' ∨ m.type = .confirmable ∧
      ∃ id, (s.send now peer m).1 = .ok m' ∧ m' = { m with id } ∧ k = ⟨peer, id⟩ := by
  have hcases := send_cases s now peer m
  generalize (s.send now peer m).1 = result at hcases
  generalize (s.send now peer m).2 = s' at hcases h
  cases hcases with
  | plain | refused | numbered => exact .inl h
  | @opened id ids htype hissue =>
    unfold openMessage? at h
    rw [Table.get?_insert] at h
    split at h
    · next hk =>
      obtain rfl := Option.some.inj h
      exact .inr ⟨htype, id, rfl, rfl, hk.symm⟩
    · exact .inl h

/-- What is open after the timers was open before. -/
theorem openMessage?_fire {outboxOpen : Bool} {now : Instant}
    (h : (s.fire outboxOpen now).2.openMessage? k = some m) : s.openMessage? k = some m := by
  obtain ⟨x, hx, rfl⟩ := Option.map_eq_some_iff.1 h
  unfold fire fireDue fireChosen at hx
  simp only at hx
  rw [Table.get?_filterMapValues, exchanges_purgeIds] at hx
  obtain ⟨x₀, hx₀, hrenewed⟩ := Option.bind_eq_some_iff.1 hx
  have hmessage : x₀.message = x.message := by
    split at hrenewed
    · exact (OpenExchange.message_of_renew hrenewed).symm
    · exact congrArg OpenExchange.message (Option.some.inj hrenewed)
  exact Option.map_eq_some_iff.2 ⟨x₀, hx₀, hmessage⟩

/-- A message that comes in frees no ID. -/
theorem ids_receive (s : Outgoing) (peer : Endpoint) (m : Message) :
    (s.receive peer m).2.2.ids = s.ids := by
  have hcases := receive_cases s peer m
  generalize (s.receive peer m).2.1 = event? at hcases
  generalize (s.receive peer m).2.2 = s' at hcases
  cases hcases with
  | ignored | closed => rfl

/-- A message that comes in opens no exchange. -/
theorem openMessage?_receive (h : (s.receive peer m).2.2.openMessage? k = some m') :
    s.openMessage? k = some m' := by
  have hcases := receive_cases s peer m
  generalize (s.receive peer m).2.1 = event? at hcases
  generalize (s.receive peer m).2.2 = s' at hcases h
  cases hcases with
  | ignored => exact h
  | closed =>
    unfold openMessage? at h
    rw [Table.get?_erase] at h
    split at h
    · cases h
    · exact h

/-- To cancel a request opens none either. -/
theorem openMessage?_cancel {token : Token}
    (h : (s.cancel peer token).openMessage? k = some m) : s.openMessage? k = some m := by
  obtain ⟨x, hx, rfl⟩ := Option.map_eq_some_iff.1 h
  unfold cancel at hx
  rw [Table.get?_filter] at hx
  exact Option.map_eq_some_iff.2 ⟨x, (Option.filter_eq_some_iff.1 hx).1, rfl⟩

end Outgoing

namespace Engine

variable {e e' e'' : Engine} {key : ConversationKey}

/-! ## A token that is not served -/

/-- Nothing is being served under a key: no observer has it, and no request that waits for its
response. -/
structure Unserved (e : Engine) (key : ConversationKey) : Prop where
  subscriptions : e.subscriptions.entries.get? key = none
  delayed : ∀ d ∈ e.delayed, (⟨d.peer, d.request.token⟩ : ConversationKey) ≠ key

/-- No exchange under a key is open that was not open before. -/
def OpensNone (key : ConversationKey) (e e' : Engine) : Prop :=
  ∀ k m, e'.outgoing.openMessage? k = some m → (⟨k.peer, m.token⟩ : ConversationKey) = key →
    e.outgoing.openMessage? k = some m

/-- If nothing is being served under a key, then the same is true afterwards, and no exchange
has been opened under it. -/
def Avoids (key : ConversationKey) (e e' : Engine) : Prop :=
  e.Unserved key → e'.Unserved key ∧ OpensNone key e e'

namespace Avoids

/-- A token that is avoided in two steps is avoided in both. -/
theorem trans (h : Avoids key e e') (h' : Avoids key e' e'') : Avoids key e e'' := by
  intro hunserved
  obtain ⟨hunserved', hopens⟩ := h hunserved
  obtain ⟨hunserved'', hopens'⟩ := h' hunserved'
  exact ⟨hunserved'', fun k m hm hkey => hopens k m (hopens' k m hm hkey) hkey⟩

/-- The layer of exchanges, the observers and the delayed requests are the same. -/
theorem of_same (houtgoing : e'.outgoing = e.outgoing)
    (hsubscriptions : e'.subscriptions = e.subscriptions) (hdelayed : e'.delayed = e.delayed) :
    Avoids key e e' := by
  intro hunserved
  refine ⟨⟨?_, ?_⟩, fun k m hm _ => ?_⟩
  · rw [hsubscriptions]
    exact hunserved.subscriptions
  · rw [hdelayed]
    exact hunserved.delayed
  · rwa [houtgoing] at hm

/-- Doing nothing avoids it. -/
theorem refl (e : Engine) : Avoids key e e := of_same rfl rfl rfl

/-- The observers change, and there is still none under the key. -/
theorem subscriptions (s : Subscriptions)
    (h : e.subscriptions.entries.get? key = none → s.entries.get? key = none) :
    Avoids key e { e with subscriptions := s } :=
  fun hunserved => ⟨⟨h hunserved.subscriptions, hunserved.delayed⟩, fun _ _ hm _ => hm⟩

/-- Exchanges end, go on, or are opened under other keys. -/
theorem outgoing (s : Outgoing)
    (h : ∀ k m, s.openMessage? k = some m → (⟨k.peer, m.token⟩ : ConversationKey) = key →
      e.outgoing.openMessage? k = some m) :
    Avoids key e { e with outgoing := s } :=
  fun hunserved => ⟨⟨hunserved.subscriptions, hunserved.delayed⟩, h⟩

/-! ## What opens no exchange under a token -/

/-- A message with another peer or token is sent, and a request with another one is served. -/
theorem servingFrame :
    ServingFrame (Avoids key) fun peer token => (⟨peer, token⟩ : ConversationKey) ≠ key where
  refl := refl
  trans := trans
  sent _ _ _ := of_same rfl rfl rfl
  called _ _ := of_same rfl rfl rfl
  incoming _ _ := of_same rfl rfl rfl
  transfers _ _ := of_same rfl rfl rfl
  numbered e peer m hm := by
    refine outgoing _ fun k m' hm' hkey => ?_
    -- the exchange was open before, or is that of the message, which has another key
    rcases Outgoing.openMessage?_send hm' with hbefore | ⟨htype, id, -, rfl, rfl⟩
    · exact hbefore
    · exact absurd hkey (hm htype)
  subscribed e peer m request? hm :=
    subscriptions _ fun hnone => Subscriptions.get?_send hnone peer m request? hm
  rendered e id accept? := by
    refine subscriptions _ fun hnone => ?_
    rw [Subscriptions.entries_render]
    exact hnone
  delayed e d hd := by
    refine fun hunserved => ⟨⟨hunserved.subscriptions, fun d' hd' => ?_⟩, fun _ _ hm _ => hm⟩
    rcases List.mem_append.1 hd' with hbefore | hnew
    · exact hunserved.delayed d' hbefore
    · exact List.mem_singleton.1 hnew ▸ hd

/-- Those who observe a resource have other keys. -/
theorem announce (e : Engine) (id : ResourceId) (event : ResourceEvent) :
    Avoids key e (e.announce id event) := by
  intro hunserved
  obtain ⟨hnone, hspared⟩ := Subscriptions.spares_announce hunserved.subscriptions id event
  have hrecorded (e : Engine) (k : ConversationKey) (id : MessageId) :
      Avoids key e { e with subscriptions := e.subscriptions.recordId k id } :=
    subscriptions _ fun hnone => Subscriptions.get?_recordId hnone k id
  have hsent := servingFrame.sendNotifications hrecorded _ hspared
    { e with subscriptions := (e.subscriptions.announce id event).2 }
  exact (subscriptions _ fun _ => hnone).trans hsent hunserved

/-- The requests that wait for their responses have other keys. -/
theorem resumeDue (e : Engine) (now : Instant) : Avoids key e (resumeDue now e) := by
  intro hunserved
  have hleft : Avoids key e { e with delayed := e.delayed.filter (now < ·.due) } :=
    fun _ => ⟨⟨hunserved.subscriptions, fun d hd => hunserved.delayed d (List.mem_filter.1 hd).1⟩,
      fun _ _ hm _ => hm⟩
  have hdue (d : Delayed) (hd : d ∈ e.delayed.filter (·.due ≤ now)) :
      (⟨d.peer, d.request.token⟩ : ConversationKey) ≠ key :=
    hunserved.delayed d (List.mem_filter.1 hd).1
  exact hleft.trans (servingFrame.resume _ hdue _) hunserved

/-- Reports open no exchange. -/
theorem report (e : Engine) (k : ConversationKey) (c : Conversation) (r : Report)
    (outcome : Except SendFailure Message) : Avoids key e (e.report k c r outcome) := by
  obtain ⟨_, _, _, hframe⟩ := report_frame e k c r outcome
  rw [hframe]
  exact of_same rfl rfl rfl

/-- Neither do conversations that are dropped. -/
theorem dropConversation (e : Engine) (k : ConversationKey) :
    Avoids key e (e.dropConversation k) := by
  unfold Engine.dropConversation
  split
  · exact refl e
  · have herased : Avoids key e { e with conversations := e.conversations.erase k } :=
      of_same rfl rfl rfl
    simp only
    split
    · exact herased.trans (report _ _ _ _ _)
    · exact herased

/-- A conversation is closed without a message to its peer. -/
theorem closeConversation (e : Engine) (k : ConversationKey) :
    Avoids key e (e.closeConversation k) :=
  of_same rfl rfl rfl

/-- To open a conversation opens no exchange. -/
theorem openConversation (e : Engine) (k : ConversationKey) (r : Requester) :
    Avoids key e (e.openConversation k r) :=
  (dropConversation e k).trans (of_same rfl rfl rfl)

/-- To withdraw a conversation opens none either. -/
theorem withdraw (e : Engine) (k : ConversationKey) : Avoids key e (e.withdraw k) := by
  let dropped := e.dropConversation k
  have hcancelled : Avoids key dropped
      { dropped with outgoing := dropped.outgoing.cancel k.peer k.token } :=
    outgoing _ fun _ _ hm _ => Outgoing.openMessage?_cancel hm
  exact ((dropConversation e k).trans hcancelled).trans (of_same rfl rfl rfl)

/-- A response that is delivered opens none. -/
theorem deliver (e : Engine) (peer : Endpoint) (m : Message) :
    Avoids key e (e.deliver peer m) := by
  unfold Engine.deliver
  simp only
  split
  · split
    · exact servingFrame.transmit _ _ _
    · exact refl e
  · split
    · exact (closeConversation _ _).trans (report _ _ _ _ _)
    · have hnoticed (c : Conversation) : Avoids key e
          ({ e with conversations := e.conversations.insert ⟨peer, m.token⟩ c }.reportResponse
            ⟨peer, m.token⟩ c m) := by
        refine Avoids.trans ?_ (report _ _ _ _ _)
        exact of_same rfl rfl rfl
      split
      · exact hnoticed _
      · split
        · exact hnoticed _
        · exact refl e

/-- So a token is avoided in each step that does not serve it. -/
theorem frame :
    NodeFrame (Avoids key) fun peer token => (⟨peer, token⟩ : ConversationKey) ≠ key where
  toServingFrame := servingFrame
  closed _ _ _ := outgoing _ fun _ _ hm _ => Outgoing.openMessage?_receive hm
  heard _ peer m := subscriptions _ fun hnone => Subscriptions.get?_receive hnone peer m
  deliver := deliver
  concluded _ event := subscriptions _ fun hnone => Subscriptions.get?_settle hnone event
  failed failure _ := (closeConversation _ _).trans (report _ _ _ _ (.error failure))
  deadlines _ _ := of_same rfl rfl rfl
  withdraw := withdraw
  withdrawing _ _ := of_same rfl rfl rfl
  repeated _ _ := outgoing _ fun _ _ hm _ => Outgoing.openMessage?_fire hm
  resumeDue := resumeDue
  stateSet _ _ _ := subscriptions _ fun hnone => hnone
  outboxOpen _ _ := of_same rfl rfl rfl
  under _ _ := of_same rfl rfl rfl
  now _ _ := of_same rfl rfl rfl

/-- A request that gets another token is submitted. -/
theorem submit (e : Engine) (peer : Endpoint) (m : Message) (r : Requester)
    (h : ∀ sent, (e.withToken peer m).1 = .ok sent →
      (⟨peer, sent.token⟩ : ConversationKey) ≠ key) :
    Avoids key e (e.submit peer m r).2 :=
  frame.submit e peer m r (fun _ _ => of_same rfl rfl rfl)
    (fun e k => openConversation e k r) closeConversation (fun _ _ => of_same rfl rfl rfl) h

end Avoids

/-! ## Histories -/

/-- An event brings a request under a key: this node sends one, or it gets one to serve. -/
def Requests (e : Engine) (key : ConversationKey) : Event → Prop
  | .submit peer m _ =>
    ∃ sent, (e.withToken peer m).1 = .ok sent ∧ (⟨peer, sent.token⟩ : ConversationKey) = key
  | .handle peer decoded =>
    ∃ m, decoded = .ok m ∧ m.isRequest = true ∧ (⟨peer, m.token⟩ : ConversationKey) = key
  | .absorb peer m => m.isRequest = true ∧ (⟨peer, m.token⟩ : ConversationKey) = key
  | _ => False

/-- No request comes under a key in a history. -/
def NoneRequests (e : Engine) (key : ConversationKey) : List Event → Prop
  | [] => True
  | event :: rest => ¬ e.Requests key event ∧ (e.step event).NoneRequests key rest

/-- **What happens without a request under a key opens no exchange under it.** -/
theorem Avoids.step {event : Event} (h : ¬ e.Requests key event) :
    Avoids key e (e.step event) := by
  refine frame.step e event (fun peer m r hevent => ?_)
    (fun peer m hevent hrequest hkey => h ?_) fun id change _ => announce e id change
  · subst hevent
    exact submit e peer m r fun sent hsent hkey => h ⟨sent, hsent, hkey⟩
  · rcases hevent with rfl | rfl
    · exact ⟨m, rfl, hrequest, hkey⟩
    · exact ⟨hrequest, hkey⟩

/-- It is avoided throughout if no request has it. -/
theorem Avoids.run (history : List Event) (h : e.NoneRequests key history) :
    Avoids key e (e.run history) := by
  induction history generalizing e with
  | nil => exact refl e
  | cons event rest ih => exact (step h.1).trans (ih h.2)

/-- What does not occur in a history does not occur in its beginning. -/
theorem NoneRequests.append_left {before after : List Event}
    (h : e.NoneRequests key (before ++ after)) : e.NoneRequests key before := by
  induction before generalizing e with
  | nil => trivial
  | cons event rest ih => exact ⟨h.1, ih h.2⟩

end Engine

end Coap
