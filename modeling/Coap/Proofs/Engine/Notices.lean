/-
# Notifications that have gone out

A subscription remembers one ID, and by that ID alone a rejection finds it.  The ID is recorded
when a notification has gone out, and at no other time: everything else that happens to a node
keeps the ID, or loses it with the subscription.  So the ID that a subscription remembers is that
of the latest notification that went out for it (`id_of_lastId?`).
-/
import Coap.Proofs.Engine.Ledger
import Coap.Proofs.Engine.Owed
import Coap.Proofs.Identifier.Reserved
import Coap.Proofs.Observe.Lifecycle

namespace Coap

/-! ## Recorded IDs -/

namespace Subscriptions

variable {s s' s'' : Subscriptions} {key other : ConversationKey} {id : MessageId}

/-- The ID that the subscription under a key remembers. -/
def lastId? (s : Subscriptions) (key : ConversationKey) : Option MessageId :=
  (s.entries.get? key).bind (·.lastId?)

/-- No ID comes to be recorded. -/
def RecordsNone (s s' : Subscriptions) : Prop :=
  ∀ key id, s'.lastId? key = some id → s.lastId? key = some id

namespace RecordsNone

/-- Steps that record no ID follow each other. -/
theorem trans (h : RecordsNone s s') (h' : RecordsNone s' s'') : RecordsNone s s'' :=
  fun key id hid => h key id (h' key id hid)

/-- IDs are recorded in the entries alone. -/
theorem of_entries (h : s'.entries = s.entries) : RecordsNone s s' := by
  intro key id hid
  rwa [lastId?, h] at hid

/-- Doing nothing records none. -/
theorem refl (s : Subscriptions) : RecordsNone s s := of_entries rfl

/-- Every subscription is as before, is gone, or remembers no ID. -/
theorem of_get? (h : ∀ key x, s'.entries.get? key = some x → x.lastId? = none ∨
    ∃ y, s.entries.get? key = some y ∧ y.lastId? = x.lastId?) : RecordsNone s s' := by
  intro key id hid
  obtain ⟨x, hx, hlast⟩ := Option.bind_eq_some_iff.1 hid
  rcases h key x hx with hnone | ⟨y, hy, hsame⟩
  · rw [hnone] at hlast
    cases hlast
  · exact Option.bind_eq_some_iff.2 ⟨y, hy, hsame.trans hlast⟩

/-- To end a subscription records no ID. -/
theorem remove (s : Subscriptions) (key : ConversationKey) : RecordsNone s (s.remove key) := by
  refine of_get? fun k x hx => .inr ⟨x, ?_, rfl⟩
  rw [get?_remove_eq] at hx
  split at hx
  · cases hx
  · exact hx

/-- A new subscription starts without an ID. -/
theorem register (s : Subscriptions) (key : ConversationKey) (path : String)
    (request : Message) : RecordsNone s (s.register key path request).2 := by
  refine of_get? fun k x hx => ?_
  rw [get?_register_eq] at hx
  split at hx
  · exact .inl (by rw [← Option.some.inj hx])
  · exact .inr ⟨x, hx, rfl⟩

/-- What passes on its way out is looked at for a registration only. -/
theorem send (s : Subscriptions) (peer : Endpoint) (m : Message) (request? : Option Message) :
    RecordsNone s (s.send peer m request?).2 := by
  unfold Subscriptions.send
  split
  · exact refl s
  · split
    · simp only
      split
      · split <;> exact register s _ _ _
      · exact remove s _
    · exact refl s

/-- What comes in may end a subscription, and records no ID. -/
theorem receive (s : Subscriptions) (peer : Endpoint) (m : Message) :
    RecordsNone s (s.receive peer m).2 := by
  unfold Subscriptions.receive
  split
  · split
    · exact remove s _
    · exact refl s
  · split
    · exact remove s _
    · exact refl s

/-- An exchange that fails may end a subscription, and records no ID. -/
theorem settle (s : Subscriptions) (event : ExchangeEvent) : RecordsNone s (s.settle event) := by
  unfold Subscriptions.settle
  split
  · exact refl s
  · simp only
    split
    · split
      · exact remove s _
      · exact refl s
    · exact refl s

/-! ### Changes -/

/-- Those who are told of a change get a number; their ID is known when it is sent. -/
theorem notifyEach (resource : ResourceId) (type : MessageType) (keys : List ConversationKey)
    (seen : Renderings) (s : Subscriptions) :
    RecordsNone s (notifyEach resource type keys seen s).2 := by
  induction keys generalizing seen s with
  | nil => exact refl s
  | cons key rest ih =>
    unfold Subscriptions.notifyEach
    split
    · exact ih seen s
    · next x hx =>
      have hnumbered : RecordsNone s
          { s with entries := s.entries.insert key { x with number := x.number.next } } := by
        refine of_get? fun k y hy => .inr ?_
        rw [Table.get?_insert] at hy
        split at hy
        · next hkey => exact ⟨x, hkey ▸ hx, by rw [← Option.some.inj hy]⟩
        · exact ⟨y, hy, rfl⟩
      have hrendered := hnumbered.trans (of_entries (entries_renderOnce _ resource x.accept? seen))
      simp only
      split
      · exact hrendered.trans (ih _ _)
      · exact hrendered.trans ((remove _ key).trans (ih _ _))

/-- A change at a path tells its observers and does no more. -/
theorem change (s : Subscriptions) (path : String) (type? : Option MessageType) :
    RecordsNone s (s.change path type?).2 := by
  unfold Subscriptions.change
  split
  · exact refl s
  · exact notifyEach _ _ _ _ s

/-- A resource that goes away dismisses its observers. -/
theorem detach (s : Subscriptions) (path : String) (listener : ListenerId) :
    RecordsNone s (s.detach path listener).2 := by
  let cleared : Subscriptions :=
    { s with attached := s.attached.erase path, byPath := s.byPath.erase path }
  have hdismissed (type : MessageType) (keys : List ConversationKey) :
      RecordsNone s (dismissEach type keys cleared).2 := by
    obtain ⟨entries, heq, hget⟩ := dismissEach_eq type keys cleared
    rw [heq]
    refine of_get? fun k x hx => .inr ⟨x, ?_, rfl⟩
    rw [show ({ cleared with entries } : Subscriptions).entries = entries from rfl, hget] at hx
    split at hx
    · cases hx
    · exact hx
  unfold Subscriptions.detach
  simp only
  split
  · exact (hdismissed _ _).trans (of_entries rfl)
  · exact hdismissed _ _

/-- What a watcher hears are changes and the end of its resource. -/
theorem hear (w : Watcher) (events : List ResourceEvent) (s : Subscriptions) :
    RecordsNone s (hear w events s).2 := by
  induction events generalizing s with
  | nil => exact refl s
  | cons event rest ih =>
    cases event with
    | changed type? => exact (change s w.path type?).trans (ih _)
    | removed => exact (detach s w.path w.listener).trans (of_entries rfl)

/-- Neither does anything record an ID that happens to a resource. -/
theorem announce (s : Subscriptions) (resource : ResourceId) (event : ResourceEvent) :
    RecordsNone s (s.announce resource event).2 := by
  have hall (watchers : List Watcher) (s : Subscriptions) :
      RecordsNone s (hearAll watchers s).2 := by
    induction watchers generalizing s with
    | nil => exact refl s
    | cons w rest ih =>
      have hdrained : RecordsNone s (s.modifyResource w.resource fun r =>
          { r with listeners := (r.listeners.drain w.listener).2 }) := of_entries rfl
      exact hdrained.trans ((hear w _ _).trans (ih _))
  have htold : RecordsNone s (s.modifyResource resource fun r =>
      { r with listeners := r.listeners.publish event }) := of_entries rfl
  exact htold.trans (hall _ _)

end RecordsNone

/-- What is recorded is recorded for one subscription. -/
theorem lastId?_recordId {id' : MessageId} (h : (s.recordId other id).lastId? key = some id') :
    other = key ∧ id' = id ∨ other ≠ key ∧ s.lastId? key = some id' := by
  have hget : (s.recordId other id).entries.get? key =
      if other = key then (s.entries.get? key).map fun x => { x with lastId? := some id }
      else s.entries.get? key :=
    Table.get?_modify ..
  rw [lastId?, hget] at h
  by_cases hkey : other = key
  · rw [if_pos hkey] at h
    cases hx : s.entries.get? key with
    | none => simp [hx] at h
    | some x =>
      simp only [hx, Option.map_some, Option.bind_some, Option.some.injEq] at h
      exact .inl ⟨hkey, h.symm⟩
  · rw [if_neg hkey] at h
    exact .inr ⟨hkey, h⟩

end Subscriptions

/-- A confirmable or non-confirmable message: it gets an ID of its own when it is sent. -/
def Message.isNumbered (m : Message) : Bool :=
  m.type = .confirmable ∨ m.type = .nonConfirmable

/-! ## What records no ID -/

namespace Engine

variable {e e' : Engine} {key : ConversationKey} {peer : Endpoint} {m : Message}
  {id : MessageId} {event : Event}

/-- A report leaves the subscriptions alone. -/
theorem subscriptions_report (e : Engine) (key : ConversationKey) (c : Conversation) (r : Report)
    (outcome : Except SendFailure Message) :
    (e.report key c r outcome).subscriptions = e.subscriptions := by
  obtain ⟨_, _, _, hframe⟩ := report_frame e key c r outcome
  rw [hframe]

/-- So does a response that is delivered. -/
theorem subscriptions_deliver (e : Engine) (peer : Endpoint) (m : Message) :
    (e.deliver peer m).subscriptions = e.subscriptions := by
  cases hc : e.conversations.get? ⟨peer, m.token⟩ with
  | none =>
    rw [deliver_of_none hc]
    unfold transmit
    split
    · split <;> rfl
    · rfl
  | some c =>
    unfold deliver
    simp only [hc]
    split
    · exact subscriptions_report _ _ _ _ _
    · split
      · exact subscriptions_report _ _ _ _ _
      · split
        · exact subscriptions_report _ _ _ _ _
        · rfl

/-- So does a conversation that is dropped. -/
theorem subscriptions_dropConversation (e : Engine) (key : ConversationKey) :
    (e.dropConversation key).subscriptions = e.subscriptions := by
  obtain ⟨_, _, _, hframe⟩ := dropConversation_frame e key
  rw [hframe]

/-- So does all that is settled. -/
theorem subscriptions_settle (e : Engine) : e.settle.subscriptions = e.subscriptions := by
  have hcollected (n : Nat) (e : Engine) :
      (withdrawCollected n e).subscriptions = e.subscriptions := by
    induction n generalizing e with
    | zero => rfl
    | succ n ih =>
      unfold withdrawCollected
      split
      · rfl
      · exact (ih _).trans (subscriptions_dropConversation _ _)
  exact hcollected _ e

/-- No ID comes to be recorded for a subscription. -/
def RecordsNone (e e' : Engine) : Prop := e.subscriptions.RecordsNone e'.subscriptions

namespace RecordsNone

/-- An engine with the same subscriptions has recorded none. -/
theorem of_same (h : e'.subscriptions = e.subscriptions) : RecordsNone e e' :=
  .of_entries (congrArg Subscriptions.entries h)

/-- Nothing that is sent or served records an ID, but for notifications. -/
theorem servingFrame : ServingFrame RecordsNone fun _ _ => True where
  refl _ := .refl _
  trans h h' := .trans h h'
  sent _ _ _ := of_same rfl
  called _ _ := of_same rfl
  incoming _ _ := of_same rfl
  transfers _ _ := of_same rfl
  numbered _ _ _ _ := of_same rfl
  subscribed e peer m request? _ := .send e.subscriptions peer m request?
  rendered e id accept? := .of_entries (Subscriptions.entries_render e.subscriptions id accept?)
  delayed _ _ _ := of_same rfl

/-- Nothing else does either. -/
theorem frame : NodeFrame RecordsNone fun _ _ => True where
  toServingFrame := servingFrame
  closed _ _ _ := of_same rfl
  heard e peer m := .receive e.subscriptions peer m
  deliver e peer m := of_same (subscriptions_deliver e peer m)
  concluded e event := .settle e.subscriptions event
  failed {e key c} failure _ := by
    obtain ⟨_, _, _, _, hframe⟩ := close_reportFailure_frame e key c failure
    rw [hframe]
    exact of_same rfl
  deadlines _ _ := of_same rfl
  withdraw e key := of_same (subscriptions_dropConversation e key)
  withdrawing _ _ := of_same rfl
  repeated _ _ := of_same rfl
  resumeDue e now := servingFrame.resume _ (fun _ _ => trivial) { e with delayed := _ }
  stateSet _ _ _ := .of_entries rfl
  outboxOpen _ _ := of_same rfl
  under _ _ := of_same rfl
  now _ _ := of_same rfl

/-- **Only what resources announce records IDs.** -/
theorem step (e : Engine) (h : ∀ id change, event ≠ .announce id change) :
    RecordsNone e (e.step event) :=
  frame.step e event
    (fun peer m r _ => frame.submit e peer m r (fun _ _ => of_same rfl)
      (fun e key => of_same (subscriptions_dropConversation e key)) (fun _ _ => of_same rfl)
      (fun _ _ => of_same rfl) fun _ _ => trivial)
    (fun _ _ _ _ => trivial) fun id change hevent => absurd hevent (h id change)

end RecordsNone

/-! ## Notices -/

/-- A notification that has gone out: whom it was for, the message as it was sent, and the node
that has just sent it. -/
structure Notice where
  key : ConversationKey
  message : Message
  node : Engine

/-- The time at which a notification went out. -/
def Notice.time (n : Notice) : Instant := n.node.now

/-- Those of some notifications that go out when they are sent in order. -/
def noticesOf (e : Engine) : List Notification → List Notice
  | [] => []
  | n :: rest =>
    let key : ConversationKey := ⟨n.peer, n.message.token⟩
    let (result, e) := e.sendInBlocks n.peer n.message none
    match result with
    | .ok id =>
      (e.sent.getLast?.map fun x => (⟨key, x.2, e⟩ : Notice)).toList ++
        { e with subscriptions := e.subscriptions.recordId key id }.noticesOf rest
    | .error _ => e.noticesOf rest

/-- The notifications that go out in an event. -/
def notices (e : Engine) : Event → List Notice
  | .announce id change =>
    { e with subscriptions := (e.subscriptions.announce id change).2 }.noticesOf
      (e.subscriptions.announce id change).1
  | _ => []

/-- The latest of some notifications for a subscriber. -/
def latestFor? (key : ConversationKey) (notices : List Notice) : Option Notice :=
  (notices.filter (·.key = key)).getLast?

/-- A message has been put into the outbox.  If it has an ID of its own that is reserved for it,
and if it is confirmable it has opened an exchange. -/
structure Posts (peer : Endpoint) (m : Message) (e e' : Engine) : Prop where
  now : e'.now = e.now
  outbox : e'.outbox = e.outbox ++ [(e.now, peer, m)]
  reserves : m.isNumbered = true →
    e'.outgoing.ids.Reserves peer m.id (e.now + e.outgoing.ids.lifetime)
  opened : m.type = .confirmable → e'.outgoing.openMessage? ⟨peer, m.id⟩ = some m

/-- What is posted is sent. -/
theorem Posts.sent (h : Posts peer m e e') : e'.sent = e.sent ++ [(peer, m)] := by
  show e'.outbox.map _ = _
  rw [h.outbox, List.map_append]
  rfl

/-- A message that gets an ID is posted with it. -/
theorem posts_sendNumbered (h : (e.sendNumbered peer m).1 = .ok id) :
    ∃ m', m'.id = id ∧ Posts peer m' e (e.sendNumbered peer m).2 := by
  have hcases := Outgoing.send_cases e.outgoing e.now peer m
  unfold sendNumbered at h ⊢
  simp only at h ⊢
  generalize (e.outgoing.send e.now peer m).1 = result at hcases h ⊢
  generalize (e.outgoing.send e.now peer m).2 = outgoing at hcases h ⊢
  cases result with
  | error failure => cases h
  | ok m' =>
    simp only at h ⊢
    split at h
    · next hopen =>
      have hopen : ({ e with outgoing } : Engine).outboxOpen = true := hopen
      obtain rfl := Except.ok.inj h
      rw [if_pos hopen]
      refine ⟨m', rfl, ?_⟩
      rw [transmit, if_pos hopen]
      -- only what is numbered has an ID that is reserved, and only what is repeated is open
      cases hcases with
      | plain htype =>
        refine ⟨rfl, outbox_note _ _, fun hnumbered => ?_, fun hconfirmable => ?_⟩
        · rcases htype with htype | htype <;> simp [Message.isNumbered, htype] at hnumbered
        · rcases htype with htype | htype <;> simp [htype] at hconfirmable
      | @numbered id ids htype hissue =>
        have hreserved := MessageIdPool.reserves_of_issue (congrArg Prod.fst hissue)
        rw [hissue] at hreserved
        refine ⟨rfl, outbox_note _ _, fun _ => hreserved, fun hconfirmable => ?_⟩
        simp [htype] at hconfirmable
      | @opened id ids htype hissue =>
        have hreserved := MessageIdPool.reserves_of_issue (congrArg Prod.fst hissue)
        rw [hissue] at hreserved
        refine ⟨rfl, outbox_note _ _, fun _ => hreserved, fun _ => ?_⟩
        exact congrArg (Option.map _) (Table.get?_insert_self ..)
    · cases h

/-- A message that is sent as its first slice is posted with the ID of this slice. -/
theorem posts_sendInBlocks {request? : Option Message}
    (h : (e.sendInBlocks peer m request?).1 = .ok id) :
    ∃ m', m'.id = id ∧ Posts peer m' e (e.sendInBlocks peer m request?).2 := by
  unfold sendInBlocks at h ⊢
  simp only at h ⊢
  split at h
  · cases h
  · next m₁ hsent =>
    obtain ⟨m', hid, hnow, houtbox, hreserves, hopened⟩ := posts_sendNumbered
      (e := { e with
        transfers := (e.transfers.send e.now peer m request?).2
        incoming := (e.incoming.send peer m₁).2 }) h
    exact ⟨m', hid, hnow, houtbox, hreserves, hopened⟩

/-! ## The latest notification -/

/-- Every ID that is remembered is that of the latest of some notifications that went out for the
subscription. -/
def Remembers (e : Engine) (notices : List Notice) : Prop :=
  ∀ key id, e.subscriptions.lastId? key = some id →
    ∃ n, latestFor? key notices = some n ∧ n.message.id = id

variable {known : List Notice}

/-- What is remembered is kept where nothing is recorded. -/
theorem Remembers.of_recordsNone (h : e.Remembers known) (hrecords : RecordsNone e e') :
    e'.Remembers known :=
  fun key id hid => h key id (hrecords key id hid)

/-- When a notification has gone out its ID is recorded. -/
theorem Remembers.recordId (h : e.Remembers known) (n : Notice) :
    ({ e with subscriptions := e.subscriptions.recordId n.key n.message.id } : Engine).Remembers
      (known ++ [n]) := by
  intro key id hid
  unfold latestFor?
  rw [List.filter_append]
  rcases Subscriptions.lastId?_recordId hid with ⟨rfl, rfl⟩ | ⟨hkey, hid⟩
  · exact ⟨n, by rw [List.filter_cons_of_pos (by simp)]; exact List.getLast?_concat, rfl⟩
  · rw [List.filter_cons_of_neg (by simpa using hkey), List.filter_nil, List.append_nil]
    exact h key id hid

/-- The IDs of notifications are recorded as they are sent. -/
theorem Remembers.sendNotifications (notifications : List Notification) :
    ∀ {e : Engine} {known : List Notice}, e.Remembers known →
      (e.sendNotifications notifications).Remembers (known ++ e.noticesOf notifications) := by
  induction notifications with
  | nil =>
    intro e known h
    exact (List.append_nil known).symm ▸ h
  | cons n rest ih =>
    intro e known h
    have hsilent : RecordsNone e (e.sendInBlocks n.peer n.message none).2 :=
      RecordsNone.servingFrame.sendInBlocks e (.inl trivial) none
    have hsent := h.of_recordsNone hsilent
    unfold Engine.sendNotifications noticesOf
    simp only
    cases hresult : (e.sendInBlocks n.peer n.message none).1 with
    | error failure => exact ih hsent
    | ok id =>
      obtain ⟨m, rfl, hposts⟩ := posts_sendInBlocks hresult
      simp only [hposts.sent, List.getLast?_concat, Option.map_some, Option.toList_some]
      rw [← List.append_assoc]
      exact ih (hsent.recordId ⟨_, m, _⟩)

/-- In every event the latest notification is remembered. -/
theorem Remembers.step (h : e.Remembers known) (event : Event) :
    (e.step event).Remembers (known ++ e.notices event) := by
  by_cases hannounces : ∃ id change, event = .announce id change
  · obtain ⟨id, change, rfl⟩ := hannounces
    refine Remembers.sendNotifications _ (h.of_recordsNone ?_)
    exact Subscriptions.RecordsNone.announce e.subscriptions id change
  · have hother (id : ResourceId) (change : ResourceEvent) : event ≠ .announce id change :=
      fun hevent => hannounces ⟨id, change, hevent⟩
    have hnone : e.notices event = [] := by
      cases event with
      | announce id change => exact absurd rfl (hother id change)
      | _ => rfl
    rw [hnone, List.append_nil]
    exact h.of_recordsNone (.step e hother)

/-- So it is throughout the turns. -/
theorem Remembers.play (turns : List Turn) :
    ∀ {e : Engine} {known : List Notice}, e.Remembers known →
      (e.play turns).Remembers (known ++ e.gather notices turns) := by
  induction turns with
  | nil =>
    intro e known h
    exact (List.append_nil known).symm ▸ h
  | cons turn rest ih =>
    intro e known h
    have hunder : (e.under turn.service).Remembers known := h
    rw [gather, ← List.append_assoc]
    exact ih (hunder.step turn.event)

/-- At the start there is nothing to be remembered. -/
theorem remembers_start (c : Config) (chances : Chances) (service : Service)
    (resources : List (String × Resource)) :
    (start c chances service resources).Remembers [] := by
  intro key id hid
  have hnone : (start c chances service resources).subscriptions.lastId? key = none := by
    rw [Subscriptions.lastId?]
    show ((Subscriptions.attachAll _ resources).entries.get? key).bind _ = none
    rw [Subscriptions.entries_attachAll]
    rfl
  rw [hnone] at hid
  cases hid

/-- **The ID that a subscription remembers is that of its latest notification.** -/
theorem id_of_lastId? (c : Config) (chances : Chances) (service : Service)
    (resources : List (String × Resource)) (turns : List Turn) :
    let e := start c chances service resources
    (e.play turns).Remembers (e.gather notices turns) :=
  (remembers_start c chances service resources).play turns

end Engine

end Coap
