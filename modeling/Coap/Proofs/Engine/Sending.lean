/-
# What a node sends besides its responses

What a node does without answering a request is made of few things: it keeps its books, sends a
message that is not empty, rejects one, repeats some, acknowledges what is due, or lets time
pass.  A relation that can be chained and holds for these (`SendingFrame`) is followed here
through all that happens before a request is handed to the service, and through everything that
is not about requests of others at all.
-/
import Coap.Proofs.Engine.Served

namespace Coap

/-! ## Messages that layers put together -/

section Layers

variable {m : Message}

/-- A reply has a code, so it is never the empty message. -/
theorem Message.not_isEmpty_replyTo (m : Message) (status : Status) :
    ¬ (m.replyTo status).isEmpty :=
  (Transfers.replyTo_spec m status).2.1

/-- An answer of a layer is a response to the message, whatever it carries. -/
def Verdict.Responds (m : Message) : Verdict → Prop
  | .reply answer => ∃ status, (m.replyTo status).SameHeader answer
  | _ => True

namespace Transfers

variable {s : Transfers} {now : Instant} {peer : Endpoint} {block : Block}

/-- A refusal of too large a body only adds options to the reply, the limit among them. -/
theorem sameHeader_tooLarge (s : Transfers) (m : Message) (exponent : Nat) :
    (m.replyTo .requestEntityTooLarge).SameHeader (s.tooLarge m exponent) := by
  have hblock : (m.replyTo .requestEntityTooLarge).SameHeader
      ((m.replyTo .requestEntityTooLarge).setBlock1 ⟨0, false, exponent⟩).message :=
    .setUnsigned _ _ _
  unfold tooLarge
  simp only
  split
  · exact hblock.trans (.setUnsigned _ _ _)
  · exact hblock

/-- A piece is acknowledged by a reply to which options alone are added. -/
theorem sameHeader_continueReply (m : Message) (block : Block) (exponent : Nat) :
    ∃ status, (m.replyTo status).SameHeader (continueReply m block exponent) := by
  unfold continueReply
  simp only
  split
  · exact ⟨_, .setUnsigned _ _ _⟩
  · exact ⟨_, .refl _⟩

/-- A slice is sent with the status of the body that it is cut from. -/
theorem sameHeader_sliceReply (m : Message) (d : Download) (slice : Block) :
    (m.replyTo (d.template.status?.getD .content)).SameHeader (sliceReply m d slice).message :=
  .trans ⟨_, _, rfl⟩ (.andThen (.setUnsigned _ _ _) fun m => .setPayload m _)

/-- What comes of a piece responds to the message that brought it, if anything does. -/
theorem responds_receiveBlock (hrequest : m.isRequest = true) :
    (s.receiveBlock now peer m block).1.Responds m := by
  rw [receiveBlock_eq hrequest]
  simp only
  split
  · exact ⟨_, sameHeader_tooLarge s m _⟩
  · split
    · exact ⟨_, .refl _⟩
    · split
      · exact ⟨_, .refl _⟩
      · split
        · exact ⟨_, sameHeader_tooLarge _ m _⟩
        · split
          · exact sameHeader_continueReply m _ _
          · trivial

/-- What comes of a call for a slice responds to the message that called for it. -/
theorem responds_serveBlock : (s.serveBlock now peer m block).1.Responds m := by
  unfold serveBlock
  simp only
  split
  · exact ⟨_, .refl _⟩
  · split
    · exact ⟨_, .refl _⟩
    · split
      · exact ⟨_, .refl _⟩
      · exact ⟨_, sameHeader_sliceReply m _ _⟩

/-- **What this layer answers, it answers to the message that came in.** -/
theorem responds_receive (s : Transfers) (now : Instant) (peer : Endpoint) (m : Message) :
    (s.receive now peer m).1.Responds m := by
  unfold receive
  split
  · next hrequest =>
    split
    · exact responds_receiveBlock hrequest
    · split
      · exact responds_serveBlock
      · trivial
    · trivial
  · trivial

/-- A request goes on as it is, or with the body that was put together. -/
theorem sameHeader_receive {m' : Message} (h : (s.receive now peer m).1 = .forward m') :
    m.SameHeader m' := by
  have hsame {m' : Message} (h : Verdict.forward m = .forward m') : m.SameHeader m' :=
    Verdict.forward.inj h ▸ .refl m
  unfold receive at h
  split at h
  · next hrequest =>
    split at h
    · rw [receiveBlock_eq hrequest] at h
      simp only at h
      repeat' split at h
      all_goals first | cases h; done | exact Verdict.forward.inj h ▸ ⟨m.options, _, rfl⟩
    · split at h
      · unfold serveBlock at h
        simp only at h
        repeat' split at h
        all_goals cases h
      · exact hsame h
    · exact hsame h
  · exact hsame h

end Transfers

/-- The layer of subscriptions answers nothing. -/
theorem Subscriptions.lets_receive (s : Subscriptions) (peer : Endpoint) (m : Message) :
    (s.receive peer m).1.Lets m := by
  unfold receive
  repeat' split
  all_goals first | exact .inl rfl | exact .inr rfl

end Layers

/-! ## Notifications are not empty -/

namespace Notification

/-- A notification without options has a status, so it is not empty. -/
theorem full_blank (type : MessageType) (status : Status) (token : Token) :
    ¬ (blank type status token).message.isEmpty := by
  rw [blank_eq]
  exact not_isEmpty_response type status token

/-- Neither is one that shows a state. -/
theorem full_ofState (type : MessageType) (token : Token) (number : SequenceNumber)
    (r : Representation) (etags : List Bytes) :
    ¬ (ofState type token number r etags).message.isEmpty := by
  obtain ⟨status, hheader⟩ := sameHeader_ofState type token number r etags
  exact hheader.not_isEmpty (full_blank type status token)

/-- A notification that tells of a failure is not empty. -/
theorem full_ofFailure (type : MessageType) (token : Token) (f : Failure) :
    ¬ (ofFailure type token f).message.isEmpty :=
  (sameHeader_ofFailure type token f).not_isEmpty (full_blank _ _ _)

end Notification

namespace Subscriptions

/-- No notification among the given ones is empty. -/
def Full (notifications : List Notification) : Prop :=
  ∀ n ∈ notifications, ¬ n.message.isEmpty

/-- Two lists of full notifications make one. -/
theorem Full.append {l l' : List Notification} (h : Full l) (h' : Full l') : Full (l ++ l') :=
  fun n hn => (List.mem_append.mp hn).elim (h n) (h' n)

theorem full_nil : Full [] := fun _ hn => by cases hn

/-- A full message makes a full notification, and one that could not be written makes none. -/
theorem full_notificationsOf (peer : Endpoint) {e : Edit} (h : ¬ e.message.isEmpty) :
    Full (notificationsOf peer e) := by
  intro n hn
  unfold notificationsOf at hn
  split at hn
  · obtain rfl := List.mem_singleton.mp hn
    exact h
  · cases hn

/-- Those who are told of a change get full notifications. -/
theorem full_notifyEach (id : ResourceId) (type : MessageType) (keys : List ConversationKey)
    (seen : Renderings) (s : Subscriptions) : Full (notifyEach id type keys seen s).1 := by
  induction keys generalizing seen s with
  | nil => exact full_nil
  | cons key rest ih =>
    unfold notifyEach
    split
    · exact ih seen s
    · simp only
      split
      · exact (full_notificationsOf _ (Notification.full_ofState _ _ _ _ _)).append (ih _ _)
      · exact (full_notificationsOf _ (Notification.full_ofFailure _ _ _)).append (ih _ _)

/-- Those who are dismissed get full notifications. -/
theorem full_dismissEach (type : MessageType) (keys : List ConversationKey) (s : Subscriptions) :
    Full (dismissEach type keys s).1 := by
  induction keys generalizing s with
  | nil => exact full_nil
  | cons key rest ih =>
    unfold dismissEach
    split
    · exact (full_notificationsOf _ (Notification.full_blank _ _ _)).append (ih _)
    · exact ih s

/-- A change at a path sends full notifications only. -/
theorem full_change (s : Subscriptions) (path : String) (type? : Option MessageType) :
    Full (s.change path type?).1 := by
  unfold change
  split
  · exact full_nil
  · exact full_notifyEach _ _ _ _ _

/-- What one watcher hears leads to full notifications only. -/
theorem full_hear (w : Watcher) (events : List ResourceEvent) (s : Subscriptions) :
    Full (hear w events s).1 := by
  induction events generalizing s with
  | nil => exact full_nil
  | cons event rest ih =>
    cases event with
    | changed type? => exact (full_change s w.path type?).append (ih _)
    | removed => exact full_dismissEach _ _ _

/-- Whatever happens to a resource, the notifications are full. -/
theorem full_announce (s : Subscriptions) (id : ResourceId) (event : ResourceEvent) :
    Full (s.announce id event).1 := by
  have hall (watchers : List Watcher) (s : Subscriptions) : Full (hearAll watchers s).1 := by
    induction watchers generalizing s with
    | nil => exact full_nil
    | cons w rest ih => exact (full_hear w _ _).append (ih _)
  exact hall _ _

end Subscriptions

namespace Engine

variable {e e' e'' : Engine} {peer : Endpoint} {m : Message} {P : Engine → Engine → Prop}

/-! ## The outbox -/

/-- While the outbox is open, what is transmitted is sent. -/
theorem sent_transmit (hopen : e.outboxOpen = true) (peer : Endpoint) (m : Message) :
    (e.transmit peer m).sent = e.sent ++ [(peer, m)] := by
  rw [transmit, if_pos hopen, sent_note]
  rfl

/-- While the outbox is open, all that is transmitted is sent, in its order. -/
theorem sent_transmitAll (hopen : e.outboxOpen = true) (messages : List (Endpoint × Message)) :
    (e.transmitAll messages).sent = e.sent ++ messages := by
  induction messages generalizing e with
  | nil => exact (List.append_nil _).symm
  | cons x rest ih =>
    have hstill : (e.transmit x.1 x.2).outboxOpen = true := by
      rw [transmit, if_pos hopen]
      exact hopen
    show ((e.transmit x.1 x.2).transmitAll rest).sent = _
    rw [ih hstill, sent_transmit hopen, List.append_assoc, List.singleton_append]

/-- A message goes out, perhaps under another ID, or there is no ID for it. -/
theorem sendNumbered_frame (e : Engine) (peer : Endpoint) (m : Message) :
    ∃ outgoing messages, (e.sendNumbered peer m).2 = { e with outgoing }.transmitAll messages ∧
      (∀ key, Incoming.acksIn key messages = Incoming.acksIn key [(peer, m)]) ∧
      ∀ k m', outgoing.openMessage? k = some m' →
        e.outgoing.openMessage? k = some m' ∨ m'.type = .confirmable := by
  have hrepeats (k : MessageKey) (m' : Message)
      (hm' : (e.outgoing.send e.now peer m).2.openMessage? k = some m') :
      e.outgoing.openMessage? k = some m' ∨ m'.type = .confirmable := by
    refine (Outgoing.openMessage?_send hm').imp_right ?_
    rintro ⟨htype, id, -, rfl, -⟩
    exact htype
  have hack (htype : m.type = .acknowledgement) : (e.outgoing.send e.now peer m).1 = .ok m := by
    simp [Outgoing.send, htype]
  unfold Engine.sendNumbered
  simp only
  cases hresult : (e.outgoing.send e.now peer m).1 with
  | error failure =>
    refine ⟨_, [], rfl, fun key => (Incoming.acksIn_of_type fun htype => ?_).symm, hrepeats⟩
    rw [hack htype] at hresult
    cases hresult
  | ok m' =>
    refine ⟨_, [(peer, m')], ?_, fun key => ?_, hrepeats⟩
    · simp only
      split
      · rfl
      · next hopen => exact (if_neg hopen).symm
    · by_cases htype : m.type = .acknowledgement
      · rw [hack htype] at hresult
        rw [Except.ok.inj hresult]
      · have hsame := Outgoing.eq_of_send hresult
        rw [Incoming.acksIn_of_type htype, Incoming.acksIn_of_type (by rwa [hsame])]

/-- So it is when the layer of acknowledgements has dealt with the message. -/
theorem sendReliably_frame (e : Engine) (peer : Endpoint) (m : Message) :
    ∃ outgoing messages, (e.sendReliably peer m).2 =
        { e with incoming := (e.incoming.send peer m).2, outgoing }.transmitAll messages ∧
      (∀ key, Incoming.acksIn key messages =
        Incoming.acksIn key [(peer, (e.incoming.send peer m).1)]) ∧
      ∀ k m', outgoing.openMessage? k = some m' →
        e.outgoing.openMessage? k = some m' ∨ m'.type = .confirmable :=
  sendNumbered_frame { e with incoming := (e.incoming.send peer m).2 } peer
    (e.incoming.send peer m).1

/-- To reject what is no message is to send something, or nothing. -/
theorem reject_frame (e : Engine) (peer : Endpoint) (fault : Datagram.DecodeFault) :
    ∃ outgoing messages, e.reject peer fault = { e with outgoing }.transmitAll messages ∧
      ∀ k m, outgoing.openMessage? k = some m →
        e.outgoing.openMessage? k = some m ∨ m.type = .confirmable := by
  have hsent (messages : List (Endpoint × Message)) : ∃ outgoing messages',
      e.transmitAll messages = { e with outgoing }.transmitAll messages' ∧
        ∀ k m, outgoing.openMessage? k = some m →
          e.outgoing.openMessage? k = some m ∨ m.type = .confirmable :=
    ⟨e.outgoing, messages, rfl, fun _ _ => .inl⟩
  cases fault with
  | malformed id? decoding =>
    cases id? with
    | none => exact hsent []
    | some id => exact hsent [(peer, .resetOf id)]
  | badOption id token type number fault =>
    cases type with
    | confirmable => exact hsent [(peer, badOptionReply .acknowledgement id token fault)]
    | nonConfirmable =>
      obtain ⟨outgoing, messages, hsent, -, hrepeats⟩ := sendNumbered_frame e peer
        (badOptionReply .nonConfirmable id token fault)
      exact ⟨outgoing, messages, hsent, hrepeats⟩
    | acknowledgement | reset => exact hsent []

/-! ## Silent steps -/

/-- Nothing is sent, acknowledged or put off, and no exchange is opened. -/
structure Silent (e e' : Engine) : Prop where
  now : e'.now = e.now
  outboxOpen : e'.outboxOpen = e.outboxOpen
  incoming : e'.incoming = e.incoming
  maxExponent : e'.transfers.maxExponent = e.transfers.maxExponent
  delayed : e'.delayed = e.delayed
  ids : e'.outgoing.ids = e.outgoing.ids
  outbox : e'.outbox = e.outbox
  repeats : ∀ k m, e'.outgoing.openMessage? k = some m → e.outgoing.openMessage? k = some m

/-- Clerical work is silent: nothing leaves. -/
theorem Clerical.silent (h : Clerical e e') : Silent e e' :=
  ⟨h.now, h.outboxOpen, h.incoming, congrArg Transfers.maxExponent h.transfers,
    h.delayed, h.ids, h.outbox, h.repeats⟩

namespace Silent

/-- Nothing is sent in a silent step. -/
theorem sent (h : Silent e e') : e'.sent = e.sent :=
  congrArg (List.map fun x : Instant × Endpoint × Message => x.2) h.outbox

/-- Doing nothing is silent. -/
theorem refl (e : Engine) : Silent e e :=
  ⟨rfl, rfl, rfl, rfl, rfl, rfl, rfl, fun _ _ hm => hm⟩

/-- Silent steps follow each other. -/
theorem trans (h : Silent e e') (h' : Silent e' e'') : Silent e e'' where
  now := h'.now.trans h.now
  outboxOpen := h'.outboxOpen.trans h.outboxOpen
  incoming := h'.incoming.trans h.incoming
  maxExponent := h'.maxExponent.trans h.maxExponent
  delayed := h'.delayed.trans h.delayed
  ids := h'.ids.trans h.ids
  outbox := h'.outbox.trans h.outbox
  repeats k m hm := h.repeats k m (h'.repeats k m hm)

/-- Subscriptions and requests of this node may change. -/
theorem books (e : Engine) (subscriptions : Subscriptions) (tokens : TokenPool)
    (conversations : Table ConversationKey Conversation) (nextNumber : Nat)
    (withdrawing : List ConversationKey) :
    Silent e { e with subscriptions, tokens, conversations, nextNumber, withdrawing } :=
  ⟨rfl, rfl, rfl, rfl, rfl, rfl, rfl, fun _ _ hm => hm⟩

/-- The handlers may behave in another way. -/
theorem under (e : Engine) (service : Service) : Silent e (e.under service) :=
  ⟨rfl, rfl, rfl, rfl, rfl, rfl, rfl, fun _ _ hm => hm⟩

/-- Blocks come and go. -/
theorem transfers (e : Engine) (event : Transfers.Event) :
    Silent e { e with transfers := e.transfers.step e.now event } :=
  ⟨rfl, rfl, rfl, (Transfers.sameLimits_step _ _ event).1, rfl, rfl, rfl, fun _ _ hm => hm⟩

/-- What is no message may be written to the log. -/
theorem note (e : Engine) {o : Occurrence} (h : LogEntry.sent? ⟨e.now, o⟩ = none) :
    Silent e (e.note o) := by
  refine ⟨rfl, rfl, rfl, rfl, rfl, rfl, ?_, fun _ _ hm => hm⟩
  rw [outbox_note, h]
  exact List.append_nil _

/-- A report goes to a requester, and to no peer. -/
theorem report (e : Engine) (key : ConversationKey) (c : Conversation) (r : Report)
    (outcome : Except SendFailure Message) : Silent e (e.report key c r outcome) := by
  unfold Engine.report
  split
  · split
    · exact refl e
    · exact (note e rfl).trans (books _ _ _ _ _ _)
  · exact note e rfl

/-- A conversation is opened in the books only. -/
theorem openConversation (e : Engine) (key : ConversationKey) (r : Requester) :
    Silent e (e.openConversation key r) :=
  (Clerical.dropConversation e key).silent.trans (books _ _ _ _ _ _)

/-- What the exchanges learn from a message is not sent. -/
theorem closed (e : Engine) (peer : Endpoint) (m : Message) :
    Silent e { e with outgoing := (e.outgoing.receive peer m).2.2 } :=
  ⟨rfl, rfl, rfl, rfl, rfl, Outgoing.ids_receive _ peer m, rfl, fun _ _ hm =>
    Outgoing.openMessage?_receive hm⟩

/-- A response for which there is a conversation is passed on. -/
theorem deliver {c : Conversation} (hc : e.conversations.get? ⟨peer, m.token⟩ = some c) :
    Silent e (e.deliver peer m) := by
  have hnoticed (c' : Conversation) : Silent e
      ({ e with conversations := e.conversations.insert ⟨peer, m.token⟩ c' }.reportResponse
        ⟨peer, m.token⟩ c' m) := (books e _ _ _ _ _).trans (report _ _ _ _ _)
  unfold Engine.deliver
  simp only [hc]
  split
  · exact (Clerical.closeConversation e _).silent.trans (report _ _ _ _ _)
  · split
    · exact hnoticed _
    · split
      · exact hnoticed _
      · exact refl e

end Silent

/-- A response that nobody waits for is rejected if it is not confirmable. -/
theorem deliver_of_none (hc : e.conversations.get? ⟨peer, m.token⟩ = none) : e.deliver peer m =
    if m.type = .nonConfirmable then e.transmit peer (.resetOf m.id) else e := by
  unfold deliver
  simp only [hc]

/-- A request keeps its code when it gets its token. -/
theorem code_withToken {sent : Message} (hsent : (e.withToken peer m).1 = .ok sent) :
    sent.code = m.code := by
  unfold withToken at hsent
  split at hsent
  · simp only at hsent
    split at hsent
    · cases hsent
    · split at hsent
      · cases hsent
      · next hset =>
        cases hsent
        rw [← Edit.message_of_toExcept hset]
        unfold Message.setToken
        split <;> rfl
  · cases hsent
    rfl

/-! ## Relations that hold for what is sent -/

/-- A relation that can be chained, and holds for silent steps and for rejecting a message. -/
structure RejectingFrame (P : Engine → Engine → Prop) : Prop where
  trans : ∀ {e e' e''}, P e e' → P e' e'' → P e e''
  silent : ∀ {e e'}, Silent e e' → P e e'
  rejected : ∀ e peer id, P e (e.transmit peer (.resetOf id))

/-- A response is passed on to its requester, or rejected. -/
theorem RejectingFrame.deliver (h : RejectingFrame P) (e : Engine) (peer : Endpoint)
    (m : Message) : P e (e.deliver peer m) := by
  cases hc : e.conversations.get? ⟨peer, m.token⟩ with
  | some c => exact h.silent (.deliver hc)
  | none =>
    rw [deliver_of_none hc]
    split
    · exact h.rejected e peer m.id
    · exact h.silent (.refl e)

/-- A relation that can be chained, and holds for silent steps, for rejecting a message and for
sending the given ones to their peers, whatever options they have. -/
structure MessageFrame (P : Engine → Engine → Prop) (Sends : Endpoint → Message → Prop) : Prop
    extends RejectingFrame P where
  header : ∀ {peer} {m m' : Message}, m.SameHeader m' → Sends peer m → Sends peer m'
  reliably : ∀ e peer {m}, Sends peer m → P e (e.sendReliably peer m).2

namespace MessageFrame

variable {Sends : Endpoint → Message → Prop} (h : MessageFrame P Sends)

include h

/-- A relation that holds for each message sent holds for one that may be cut into slices. -/
theorem sendInBlocks (e : Engine) (peer : Endpoint) (hm : Sends peer m) (request? : Option Message) :
    P e (e.sendInBlocks peer m request?).2 := by
  have hlayer : P e { e with transfers := (e.transfers.send e.now peer m request?).2 } :=
    h.silent (.transfers e (.send peer m request?))
  unfold Engine.sendInBlocks
  simp only
  split
  · exact hlayer
  · next hsent =>
    exact h.trans hlayer (h.reliably _ _ (h.header (Transfers.sameHeader_send hsent) hm))

/-- It holds for a message that goes through all layers. -/
theorem sendThrough (e : Engine) (peer : Endpoint) (hm : Sends peer m) (request? : Option Message) :
    P e (e.sendThrough peer m request?).2 := by
  have hlayer : P e { e with subscriptions := (e.subscriptions.send peer m request?).2 } :=
    h.silent (.books e _ _ _ _ _)
  unfold Engine.sendThrough
  simp only
  split
  · exact hlayer
  · next hsent =>
    exact h.trans hlayer
      (h.sendInBlocks _ peer (h.header (Subscriptions.sameHeader_send hsent) hm) _)

/-- A request is submitted that may be sent with its token. -/
theorem submit (e : Engine) (peer : Endpoint) (m : Message) (r : Requester)
    (hm : ∀ sent, (e.withToken peer m).1 = .ok sent → Sends peer sent) :
    P e (e.submit peer m r).2 := by
  have htokened : P e (e.withToken peer m).2 := h.silent (Clerical.withToken e peer m).silent
  unfold Engine.submit
  simp only
  split
  · exact h.trans htokened (h.silent
      ((Clerical.reportUnsent _ peer r _).trans (.settle _)).silent)
  · next sent hsent =>
    have hgone := h.trans (h.trans htokened (h.silent (.openConversation _ ⟨peer, sent.token⟩ r)))
      (h.sendThrough _ peer (hm sent hsent) none)
    split
    · exact h.trans hgone (h.silent (Clerical.settle _).silent)
    · exact h.trans hgone (h.silent (((Clerical.closeConversation _ _).trans
        (.reportUnsent _ peer r _)).trans (.settle _)).silent)

end MessageFrame

/-- A relation that holds for messages that are sent, and for what happens by itself as time goes
on. -/
structure SendingFrame (P : Engine → Engine → Prop) (Sends : Endpoint → Message → Prop) : Prop
    extends MessageFrame P Sends where
  repeated : ∀ e, P e (repeatDue e.now e)
  swept : ∀ e, P e (sweepDue e.now e)
  clock : ∀ e now, e.now ≤ now → P e { e with now }
  closed : ∀ e, P e { e with outboxOpen := false }

namespace SendingFrame

variable {Sends : Endpoint → Message → Prop} (h : SendingFrame P Sends)

include h

/-- It holds where nothing happens. -/
theorem refl (e : Engine) : P e e := h.silent (.refl e)

/-- Notifications are sent one after another, each of them through all layers. -/
theorem sendNotifications (notifications : List Notification)
    (hn : ∀ n ∈ notifications, Sends n.peer n.message) (e : Engine) :
    P e (e.sendNotifications notifications) := by
  induction notifications generalizing e with
  | nil => exact h.refl e
  | cons n rest ih =>
    have hsent : P e (e.sendInBlocks n.peer n.message none).2 :=
      h.sendInBlocks e _ (hn n List.mem_cons_self) none
    have hrest := ih fun n hmem => hn n (List.mem_cons_of_mem _ hmem)
    unfold Engine.sendNotifications
    simp only
    split
    · exact h.trans (h.trans hsent (h.silent (.books _ _ _ _ _ _))) (hrest _)
    · exact h.trans hsent (hrest _)

/-- What happens to a resource leaves as notifications. -/
theorem announce (e : Engine) (id : ResourceId) (event : ResourceEvent)
    (hn : ∀ n ∈ (e.subscriptions.announce id event).1, Sends n.peer n.message) :
    P e (e.announce id event) :=
  h.trans (h.silent (.books e _ _ _ _ _)) (h.sendNotifications _ hn _)

end SendingFrame

/-- What the layers answer and what observers are told at an event are messages that are sent. -/
structure Event.SendsOnly (Sends : Endpoint → Message → Prop) (e : Engine) (event : Event) :
    Prop where
  replied : ∀ peer m answer, event.Brings peer m → e.Admits peer m →
    (e.transfers.receive e.now peer m).1 = .reply answer → Sends peer answer
  notified : ∀ id change, event = .announce id change →
    ∀ n ∈ (e.subscriptions.announce id change).1, Sends n.peer n.message

/-- Layers answer with messages that are not empty, and so observers are told. -/
theorem Event.SendsOnly.of_full {Sends : Endpoint → Message → Prop} {event : Event}
    (hfull : ∀ {peer m}, ¬ m.isEmpty → Sends peer m) : event.SendsOnly Sends e where
  replied peer m answer _ _ hanswer := by
    have hresponds := e.transfers.responds_receive e.now peer m
    rw [hanswer] at hresponds
    obtain ⟨status, hheader⟩ := hresponds
    exact hfull (hheader.not_isEmpty (m.not_isEmpty_replyTo status))
  notified id change _ n hn := hfull (Subscriptions.full_announce e.subscriptions id change n hn)

end Engine

end Coap
