/-
# What a node says

A message that a node has for a peer was sent, is repeated until it is acknowledged, or is kept
to acknowledge duplicates with.  Few things add to these messages: the node acknowledges or
rejects a message, sends a request of its own, answers a request or notifies its observers.
`Acts` follows what a node without observers has to say, beside what it remembers of the
messages that came in and what it does about the requests it serves.
-/
import Coap.Proofs.Engine.Stored

namespace Coap

namespace Engine

variable {e e' e'' : Engine} {peer : Endpoint} {m : Message}

/-- All that is transmitted is logged, and nothing else changes. -/
theorem transmitAll_frame (messages : List (Endpoint × Message)) (e : Engine) :
    ∃ log, e.transmitAll messages = { e with log } := by
  induction messages generalizing e with
  | nil => exact ⟨_, rfl⟩
  | cons x rest ih =>
    obtain ⟨log, hrest⟩ := ih (e.transmit x.1 x.2)
    refine ⟨log, hrest.trans ?_⟩
    unfold transmit
    split <;> rfl

/-! ## The messages of a node -/

/-- A node has a message for a peer: it was sent, it is repeated until it is acknowledged, or it
is kept for duplicates. -/
inductive Holds (e : Engine) (peer : Endpoint) (m : Message) : Prop
  | sent (h : (peer, m) ∈ e.sent)
  | repeated (id : MessageId) (h : e.outgoing.openMessage? ⟨peer, id⟩ = some m)
  | kept (id : MessageId) (h : e.incoming.Stores ⟨peer, id⟩ m)

/-- What was sent, what is repeated and what is stored are the same. -/
theorem Holds.congr (h : e'.Holds peer m) (hlog : e'.log = e.log)
    (houtgoing : e'.outgoing = e.outgoing) (hincoming : e'.incoming = e.incoming) :
    e.Holds peer m := by
  cases h with
  | sent hsent =>
    simp only [Engine.sent, history, hlog] at hsent
    exact .sent hsent
  | repeated id hopen => exact .repeated id (houtgoing ▸ hopen)
  | kept id hkept => exact .kept id (hincoming ▸ hkept)

/-- What is noted may be a message that is sent. -/
theorem holds_note {o : Occurrence} (h : (e.note o).Holds peer m) :
    e.Holds peer m ∨ o = .sent peer m := by
  cases h with
  | sent hsent =>
    rw [sent_note] at hsent
    rcases List.mem_append.1 hsent with hbefore | hnew
    · exact .inl (.sent hbefore)
    · cases o with
      | sent p m' =>
        obtain ⟨rfl, rfl⟩ : peer = p ∧ m = m' := by simpa [LogEntry.sent?] using hnew
        exact .inr rfl
      | reported | called => simp [LogEntry.sent?] at hnew
  | repeated id hopen => exact .inl (.repeated id hopen)
  | kept id hkept => exact .inl (.kept id hkept)

variable {Says Says' : Endpoint → Message → Prop} {last : Instant} {waits waits' : List Delayed}
  {calls calls' : List String}

/-- What a node does without observers: the messages it comes to have, the requests that come
to wait for their responses, and the handlers that are called.  What it remembers until the
last moment is not forgotten. -/
structure Acts (Says : Endpoint → Message → Prop) (last : Instant) (waits : List Delayed)
    (calls : List String) (e e' : Engine) : Prop where
  holds : ∀ peer m, e'.Holds peer m → e.Holds peer m ∨ Says peer m
  unobserved : e.Unobserved → e'.Unobserved
  remembers : ∀ key, e.incoming.Remembers last key → e'.incoming.Remembers last key
  lifetimes : Incoming.SameLifetimes e.incoming e'.incoming
  maxExponent : e'.transfers.maxExponent = e.transfers.maxExponent
  now : e'.now = e.now
  service : e'.service = e.service
  delayed : e'.delayed = e.delayed ++ waits
  called : e'.called = e.called ++ calls

namespace Acts

/-- Acts follow each other, with what waits and what is called in both. -/
theorem trans (h : Acts Says last waits calls e e') (h' : Acts Says last waits' calls' e' e'') :
    Acts Says last (waits ++ waits') (calls ++ calls') e e'' where
  holds peer m hm := (h'.holds peer m hm).elim (h.holds peer m) .inr
  unobserved hnone := h'.unobserved (h.unobserved hnone)
  remembers key hkey := h'.remembers key (h.remembers key hkey)
  lifetimes := ⟨h'.lifetimes.1.trans h.lifetimes.1, h'.lifetimes.2.trans h.lifetimes.2⟩
  maxExponent := h'.maxExponent.trans h.maxExponent
  now := h'.now.trans h.now
  service := h'.service.trans h.service
  delayed := by rw [h'.delayed, h.delayed, List.append_assoc]
  called := by rw [h'.called, h.called, List.append_assoc]

/-- More may be said, and what the node has already may be said again. -/
theorem mono (h : Acts Says last waits calls e e')
    (hsaid : ∀ peer m, Says peer m → e.Holds peer m ∨ Says' peer m) :
    Acts Says' last waits calls e e' :=
  { h with holds := fun peer m hm => (h.holds peer m hm).elim .inl (hsaid peer m) }

/-- A step that serves nothing, and leaves the clock and the settings alone. -/
theorem of_holds (hholds : ∀ peer m, e'.Holds peer m → e.Holds peer m ∨ Says peer m)
    (hunobserved : e.Unobserved → e'.Unobserved)
    (hremembers : ∀ key, e.incoming.Remembers last key → e'.incoming.Remembers last key)
    (hlifetimes : Incoming.SameLifetimes e.incoming e'.incoming)
    (hexponent : e'.transfers.maxExponent = e.transfers.maxExponent)
    (hnow : e'.now = e.now) (hservice : e'.service = e.service)
    (hdelayed : e'.delayed = e.delayed) (hcalled : e'.called = e.called) :
    Acts Says last [] [] e e' where
  holds := hholds
  unobserved := hunobserved
  remembers := hremembers
  lifetimes := hlifetimes
  maxExponent := hexponent
  now := hnow
  service := hservice
  delayed := by rw [hdelayed, List.append_nil]
  called := by rw [hcalled, List.append_nil]

/-- Clerical work says nothing and calls nobody. -/
theorem of_clerical (h : Clerical e e') : Acts Says last [] [] e e' := by
  refine of_holds (fun peer m hm => .inl ?_) h.unobserved ?_ ?_ ?_ h.now h.service h.delayed
    h.called
  · cases hm with
    | sent hsent =>
      rw [h.sent] at hsent
      exact .sent hsent
    | repeated id hopen => exact .repeated id (h.repeats _ _ hopen)
    | kept id hkept =>
      rw [h.incoming] at hkept
      exact .kept id hkept
  · rw [h.incoming]
    exact fun _ hkey => hkey
  · rw [h.incoming]
    exact ⟨rfl, rfl⟩
  · rw [h.transfers]

/-- To do nothing says nothing either. -/
theorem refl (e : Engine) : Acts Says last [] [] e e := of_clerical (.refl e)

/-! ### Small steps -/

/-- The exchanges may change if they keep no message that the node does not say. -/
theorem outgoing (e : Engine) (s : Outgoing)
    (h : ∀ k m, s.openMessage? k = some m →
      e.outgoing.openMessage? k = some m ∨ Says k.peer m) :
    Acts Says last [] [] e { e with outgoing := s } := by
  refine of_holds (fun peer m hm => ?_) (fun hnone => hnone) (fun _ hkey => hkey) ⟨rfl, rfl⟩ rfl
    rfl rfl rfl rfl
  cases hm with
  | sent hsent => exact .inl (.sent hsent)
  | repeated id hopen => exact (h _ _ hopen).imp_left (.repeated id)
  | kept id hkept => exact .inl (.kept id hkept)

/-- The layer of acknowledgements sees an event, and stores what is sent at most. -/
theorem incoming (e : Engine) {t : Instant} (ht : t ≤ last) (event : Incoming.Event)
    (h : ∀ peer m, event = .send peer m → Says peer m) :
    Acts Says last [] [] e { e with incoming := e.incoming.step t event } := by
  refine of_holds (fun peer m hm => ?_) (fun hnone => hnone) (fun key hkey => ?_)
    (Incoming.sameLifetimes_step _ _ _) rfl rfl rfl rfl rfl
  · cases hm with
    | sent hsent => exact .inl (.sent hsent)
    | repeated id hopen => exact .inl (.repeated id hopen)
    | kept id hkept =>
      exact (Incoming.stores_step hkept).imp (.kept id) fun hsent => h _ _ hsent
  · exact (Incoming.remembers_step ht).2 (.inl hkey)

/-- What was said and what is kept are the same. -/
theorem of_same (hlog : e'.log = e.log) (houtgoing : e'.outgoing = e.outgoing)
    (hincoming : e'.incoming = e.incoming) (hunobserved : e.Unobserved → e'.Unobserved)
    (hexponent : e'.transfers.maxExponent = e.transfers.maxExponent) (hnow : e'.now = e.now)
    (hservice : e'.service = e.service) (hdelayed : e'.delayed = e.delayed) :
    Acts Says last [] [] e e' := by
  refine of_holds (fun peer m hm => .inl (hm.congr hlog houtgoing hincoming)) hunobserved ?_ ?_
    hexponent hnow hservice hdelayed ?_
  · rw [hincoming]
    exact fun _ hkey => hkey
  · rw [hincoming]
    exact ⟨rfl, rfl⟩
  · simp only [Engine.called, history, hlog]

/-- The subscriptions may change if none is made where nobody observed. -/
theorem subscriptions (e : Engine) (s : Subscriptions)
    (h : e.Unobserved → ∀ key, s.entries.get? key = none) :
    Acts Says last [] [] e { e with subscriptions := s } :=
  of_same rfl rfl rfl h rfl rfl rfl rfl

/-- A handler is called. -/
theorem calling (e : Engine) (handler : String) :
    Acts Says last [] [handler] e (e.note (.called handler)) where
  holds _ _ hm := .inl ((holds_note hm).resolve_right fun hsent => by cases hsent)
  unobserved hnone := hnone
  remembers _ hkey := hkey
  lifetimes := ⟨rfl, rfl⟩
  maxExponent := rfl
  now := rfl
  service := rfl
  delayed := (List.append_nil _).symm
  called := called_note e _

/-- A request comes to wait for its response. -/
theorem waiting (e : Engine) (d : Delayed) :
    Acts Says last [d] [] e { e with delayed := e.delayed ++ [d] } where
  holds _ _ hm := .inl (hm.congr rfl rfl rfl)
  unobserved hnone := hnone
  remembers _ hkey := hkey
  lifetimes := ⟨rfl, rfl⟩
  maxExponent := rfl
  now := rfl
  service := rfl
  delayed := rfl
  called := (List.append_nil _).symm

/-! ### Sending -/

/-- A message may be transmitted that is kept for it, or that the node says. -/
theorem transmit (e : Engine) (h : e.Holds peer m ∨ Says peer m) :
    Acts Says last [] [] e (e.transmit peer m) := by
  unfold Engine.transmit
  split
  · refine of_holds (fun p m' hm => ?_) (fun hnone => hnone) (fun _ hkey => hkey) ⟨rfl, rfl⟩ rfl
      rfl rfl rfl ?_
    · rcases holds_note hm with hbefore | hnew
      · exact .inl hbefore
      · -- it is the message that is sent now
        cases hnew
        exact h
    · rw [called_note]
      simp [LogEntry.called?]
  · exact refl e

/-- All messages that the node says may be transmitted. -/
theorem transmitAll (messages : List (Endpoint × Message)) (h : ∀ x ∈ messages, Says x.1 x.2)
    (e : Engine) : Acts Says last [] [] e (e.transmitAll messages) := by
  induction messages generalizing e with
  | nil => exact refl e
  | cons x rest ih =>
    have hfirst : Acts Says last [] [] e (e.transmit x.1 x.2) :=
      transmit e (.inr (h x List.mem_cons_self))
    exact hfirst.trans (ih (fun y hy => h y (List.mem_cons_of_mem _ hy)) _)

/-- A message leaves with the ID it gets, if it gets one. -/
theorem sendNumbered (e : Engine)
    (h : ∀ m', (e.outgoing.send e.now peer m).1 = .ok m' → Says peer m') :
    Acts Says last [] [] e (e.sendNumbered peer m).2 := by
  have hlayer : Acts Says last [] [] e
      { e with outgoing := (e.outgoing.send e.now peer m).2 } := by
    refine outgoing e _ fun k m' hm' => ?_
    refine (Outgoing.openMessage?_send hm').imp_right ?_
    rintro ⟨-, id, hsent, -, rfl⟩
    exact h m' hsent
  unfold Engine.sendNumbered
  simp only
  split
  · exact hlayer
  · next m' hm' =>
    split
    · exact hlayer.trans (transmit _ (.inr (h m' hm')))
    · exact hlayer

/-- A message goes out with another ID, and the node has to say it with any. -/
theorem sendReliably (e : Engine) (h : ∀ m', m.SameContent m' → Says peer m') :
    Acts Says last [] [] e (e.sendReliably peer m).2 := by
  have hlayer : Acts Says last [] [] e { e with incoming := (e.incoming.send peer m).2 } := by
    refine incoming e (Nat.zero_le last) (.send peer m) ?_
    rintro p m' hsent
    cases hsent
    exact h m (.refl m)
  refine hlayer.trans (sendNumbered _ fun m' hm' => h m' ?_)
  exact (Incoming.sameContent_send e.incoming peer m).trans ⟨_, _, Outgoing.eq_of_send hm'⟩

/-- A response that fits one block, or any other message, passes the layer of transfers as it
is. -/
theorem sendInBlocks (e : Engine) {request? : Option Message}
    (hwhole : ¬ e.transfers.Cuts m request?) (h : ∀ m', m.SameContent m' → Says peer m') :
    Acts Says last [] [] e (e.sendInBlocks peer m request?).2 := by
  have hpassed : e.transfers.send e.now peer m request? = (.ok m, e.transfers) := by
    rw [Transfers.send_eq, if_neg hwhole]
  unfold Engine.sendInBlocks
  simp only [hpassed]
  exact sendReliably e h

/-- Nobody observes by the request that is answered. -/
theorem sendThrough (e : Engine) {request? : Option Message}
    (hasks : ∀ request, request? = some request → Subscriptions.asksToObserve request 0 = false)
    (hwhole : ¬ e.transfers.Cuts m request?) (h : ∀ m', m.SameContent m' → Says peer m') :
    Acts Says last [] [] e (e.sendThrough peer m request?).2 := by
  have hpassed : e.subscriptions.send peer m request? = (.ok m, e.subscriptions) := by
    cases request? with
    | none => rfl
    | some request => simp [Subscriptions.send, hasks request rfl]
  unfold Engine.sendThrough
  simp only [hpassed]
  exact sendInBlocks e hwhole h

/-! ### The passing of time -/

/-- What is repeated was said before. -/
theorem repeatDue (now : Instant) (e : Engine) : Acts Says last [] [] e (repeatDue now e) := by
  let Again (p : Endpoint) (m : Message) : Prop := e.Holds p m ∨ Says p m
  have hlayer : Acts Again last [] [] e
      { e with outgoing := (e.outgoing.fire e.outboxOpen now).2 } :=
    outgoing e _ fun _ _ hm => .inl (Outgoing.openMessage?_fire hm)
  have hagain : ∀ x ∈ (e.outgoing.fire e.outboxOpen now).1.sent, Again x.1 x.2 := by
    intro x hx
    obtain ⟨id, hopen⟩ := Outgoing.open_of_fire hx
    exact .inl (.repeated id hopen)
  exact (hlayer.trans (transmitAll _ hagain _)).mono fun _ _ hm => hm

/-- What is sent when the inbound side sweeps are signals. -/
theorem sweepDue (hsignal : ∀ peer m, m.IsSignal → Says peer m) {now : Instant}
    (hnow : now ≤ last) (e : Engine) : Acts Says last [] [] e (sweepDue now e) := by
  unfold Engine.sweepDue
  split
  · have hlayer : Acts Says last [] [] e { e with incoming := (e.incoming.sweep now).2 } :=
      incoming e hnow .sweep fun _ _ hsent => by cases hsent
    exact hlayer.trans (transmitAll _ (fun x hx => hsignal _ _ (Incoming.signal_of_sweep x hx)) _)
  · exact refl e

/-! ### Resources -/

/-- Without observers there is nobody to be told of a change. -/
theorem announce (h : e.Unobserved) (id : ResourceId) (event : ResourceEvent) :
    Acts Says last [] [] e (e.announce id event) := by
  have hspared (key : ConversationKey) := Subscriptions.spares_announce (h key) id event
  have hnobody : (e.subscriptions.announce id event).1 = [] := by
    refine List.eq_nil_iff_forall_not_mem.2 fun n hn => ?_
    exact (hspared ⟨n.peer, n.message.token⟩).2 n hn rfl
  unfold Engine.announce
  simp only [hnobody]
  exact subscriptions e _ fun _ key => (hspared key).1

/-- The state of a resource is not said before somebody asks. -/
theorem setState (e : Engine) (id : ResourceId)
    (state : Option UInt16 → Except Failure Representation) :
    Acts Says last [] [] e (e.setState id state) :=
  subscriptions e _ fun hnone => hnone

/-! ### Requests of this node -/

/-- A requester is told something. -/
theorem telling (e : Engine) (requester : String) (p : Endpoint) (r : Report) :
    Acts Says last [] [] e (e.note (.reported requester p r)) := by
  refine of_holds (fun q m hm => .inl ?_) (fun hnone => hnone) (fun _ hkey => hkey) ⟨rfl, rfl⟩ rfl
    rfl rfl rfl ?_
  · exact (holds_note hm).resolve_right fun hsent => by cases hsent
  · rw [called_note]
    simp [LogEntry.called?]

/-- What is reported stays here. -/
theorem report (e : Engine) (key : ConversationKey) (c : Conversation) (r : Report)
    (outcome : Except SendFailure Message) :
    Acts Says last [] [] e (e.report key c r outcome) := by
  unfold Engine.report
  split
  · split
    · exact refl e
    · exact (telling e _ _ _).trans
        (of_same rfl rfl rfl (fun hnone => hnone) rfl rfl rfl rfl)
  · exact telling e _ _ _

/-- A response is passed on to its requester, or rejected. -/
theorem deliver (hsignal : ∀ peer m, m.IsSignal → Says peer m) (e : Engine) (peer : Endpoint)
    (m : Message) : Acts Says last [] [] e (e.deliver peer m) := by
  have hnoticed (c : Conversation) : Acts Says last [] [] e
      ({ e with conversations := e.conversations.insert ⟨peer, m.token⟩ c }.reportResponse
        ⟨peer, m.token⟩ c m) := by
    have hreplaced : Acts Says last [] [] e
        { e with conversations := e.conversations.insert ⟨peer, m.token⟩ c } :=
      of_same rfl rfl rfl (fun hnone => hnone) rfl rfl rfl rfl
    exact hreplaced.trans (report _ _ _ _ _)
  unfold Engine.deliver
  simp only
  split
  · split
    · exact transmit e (.inr (hsignal _ _ ⟨m.id, .inr rfl⟩))
    · exact refl e
  · split
    · exact (of_clerical (.closeConversation e _)).trans (report _ _ _ _ _)
    · split
      · exact hnoticed _
      · split
        · exact hnoticed _
        · exact refl e

/-- To open a conversation says nothing. -/
theorem openConversation (e : Engine) (key : ConversationKey) (requester : Requester) :
    Acts Says last [] [] e (e.openConversation key requester) :=
  (of_clerical (.dropConversation e key)).trans
    (of_same rfl rfl rfl (fun hnone => hnone) rfl rfl rfl rfl)

end Acts

/-- A request passes the layers on its way out, and gets its ID. -/
theorem sendThrough_of_request (e : Engine) (peer : Endpoint) (hresponse : ¬ m.isResponse)
    (htype : m.type ≠ .acknowledgement) :
    e.sendThrough peer m none = e.sendNumbered peer m := by
  have hsubscriptions : e.subscriptions.send peer m none = (.ok m, e.subscriptions) := rfl
  have htransfers : e.transfers.send e.now peer m none = (.ok m, e.transfers) := by
    rw [Transfers.send_eq, if_neg fun hcuts => hresponse hcuts.1]
  have hincoming : e.incoming.send peer m = (m, e.incoming) := by
    rw [Incoming.send, if_neg fun hack => htype hack.1]
  simp only [sendThrough, hsubscriptions, sendInBlocks, htransfers, sendReliably, hincoming]

/-- A request that gets no token is only reported. -/
theorem Clerical.submit_of_error {e : Engine} {failure : SendFailure}
    (htokened : (e.withToken peer m).1 = .error failure) (r : Requester) :
    Clerical e (e.submit peer m r).2 := by
  have hunsent := (Clerical.withToken e peer m).trans (.reportUnsent _ peer r failure)
  unfold Engine.submit
  simp only [htokened]
  exact hunsent.trans (.settle _)

/-- A request is sent under one ID. -/
theorem Acts.submit {e : Engine} {sent : Message} (htokened : (e.withToken peer m).1 = .ok sent)
    (hresponse : ¬ sent.isResponse) (htype : sent.type ≠ .acknowledgement) (r : Requester) :
    ∃ id, Acts (fun p m' => p = peer ∧ m' = { sent with id }) last [] [] e
      (e.submit peer m r).2 := by
  let e₁ := (e.withToken peer m).2.openConversation ⟨peer, sent.token⟩ r
  -- the one ID under which the request can leave
  obtain ⟨id, hid⟩ : ∃ id, ∀ m', (e₁.outgoing.send e₁.now peer sent).1 = .ok m' →
      m' = { sent with id } := by
    cases hsent : (e₁.outgoing.send e₁.now peer sent).1 with
    | error failure => exact ⟨0, fun _ hm' => by cases hm'⟩
    | ok numbered =>
      refine ⟨numbered.id, fun m' hm' => ?_⟩
      cases hm'
      exact Outgoing.eq_of_send hsent
  have hopened : Acts (fun p m' => p = peer ∧ m' = { sent with id }) last [] [] e e₁ :=
    (of_clerical (.withToken e peer m)).trans (openConversation _ _ r)
  have hnumbered : Acts (fun p m' => p = peer ∧ m' = { sent with id }) last [] [] e₁
      (e₁.sendNumbered peer sent).2 := sendNumbered e₁ fun m' hm' => ⟨rfl, hid m' hm'⟩
  have hgone := hopened.trans hnumbered
  refine ⟨id, ?_⟩
  unfold Engine.submit
  simp only [htokened, sendThrough_of_request _ _ hresponse htype]
  split
  · exact hgone.trans (of_clerical (.settle _))
  · refine hgone.trans (of_clerical ((Clerical.closeConversation _ ⟨peer, sent.token⟩).trans ?_))
    exact (Clerical.reportUnsent _ peer r _).trans (.settle _)

/-- A request is served and a response passed on, and nothing else is dealt with. -/
theorem accept_eq (e : Engine) (peer : Endpoint) (m : Message) :
    e.accept peer m = if m.isRequest then e.serve peer m
      else if m.isResponse then e.deliver peer m else e := by
  unfold accept Message.isRequest Message.isResponse Code.isRequest Code.isResponse Code.method?
    Code.status?
  cases m.code.meaning <;> rfl

end Engine

/-! ## Plain messages -/

section Plain

variable {m : Message}

/-- No message is both a response and a request. -/
theorem Message.isRequest_of_isResponse (h : m.isResponse = true) :
    m.isRequest = false := by
  unfold isResponse Code.isResponse Code.status? at h
  unfold isRequest Code.isRequest Code.method?
  cases hmeaning : m.code.meaning with
  | response => rfl
  | _ => simp [hmeaning] at h

/-- A message that is no request, or one that asks for nothing special: neither for a block nor
to observe. -/
def Message.IsPlain (m : Message) : Prop :=
  m.isRequest = true → m.block1? = none ∧ m.block2? = none ∧ m.observed? = none

/-- A message goes on as it is, or is consumed. -/
def Verdict.Lets (m : Message) (v : Verdict) : Prop := v = .forward m ∨ v = .consume

/-- Outgoing exchanges let a message pass, or take it. -/
theorem Outgoing.lets_receive (s : Outgoing) (peer : Endpoint) (m : Message) :
    (s.receive peer m).1.Lets m := by
  unfold receive
  simp only
  repeat' split
  all_goals first | exact .inl rfl | exact .inr rfl

/-- Incoming exchanges do the same. -/
theorem Incoming.lets_receive (s : Incoming) (t : Instant) (peer : Endpoint) (m : Message) :
    (s.receive t peer m).1.Lets m := by
  unfold receive receiveRequest
  simp only
  repeat' split
  all_goals first | exact .inl rfl | exact .inr rfl

/-- A plain message has nothing to do with blocks. -/
theorem Transfers.receive_of_plain (h : m.IsPlain) (s : Transfers) (now : Instant)
    (peer : Endpoint) : s.receive now peer m = (.forward m, s) := by
  unfold receive
  split
  · next hrequest =>
    obtain ⟨hblock1, hblock2, -⟩ := h hrequest
    rw [hblock1, hblock2]
  · rfl

/-- Without observers none can be rejected, and a plain message withdraws none. -/
theorem Subscriptions.receive_of_plain (h : m.IsPlain) {s : Subscriptions}
    (hnone : ∀ key, s.entries.get? key = none) (peer : Endpoint) :
    s.receive peer m = (.forward m, s) := by
  have hfind : s.findById? peer m.id = none := by
    refine Option.eq_none_iff_forall_ne_some.2 fun key hkey => ?_
    obtain ⟨x, hx, -⟩ := Option.map_eq_some_iff.1 hkey
    have hget := Table.mem_entries_iff.1 (List.mem_of_find?_eq_some hx)
    rw [hnone] at hget
    cases hget
  have hasks : asksToObserve m 1 = false := by
    by_cases hrequest : m.isRequest = true
    · simp [asksToObserve, (h hrequest).2.2]
    · have hmethod : m.method? = none := by
        simpa [Message.isRequest, Code.isRequest, Message.method?] using hrequest
      simp [asksToObserve, hmethod]
  simp [receive, hfind, hasks]

namespace Engine

variable {Says : Endpoint → Message → Prop} {last : Instant} {e : Engine}

/-- A message gets past the exchanges of this node and the duplicates. -/
def Admits (e : Engine) (peer : Endpoint) (m : Message) : Prop :=
  (e.outgoing.receive peer m).1 = .forward m ∧
    (e.incoming.receive e.now peer m).1 = .forward m

/-- Whether a message is admitted can be computed. -/
instance (e : Engine) (peer : Endpoint) (m : Message) : Decidable (e.Admits peer m) :=
  inferInstanceAs (Decidable (_ ∧ _))

/-- **A plain message that passes the outgoing exchanges is dealt with.**  It may be answered by a
signal or by what was stored for its duplicates.  If it is new it passes the other layers as well. -/
theorem receiveReliably_of_plain (hplain : m.IsPlain) (hnone : e.Unobserved) (hnow : e.now ≤ last)
    (hsignal : ∀ peer m, m.IsSignal → Says peer m) (peer : Endpoint) :
    ∃ e₁, Acts Says last [] [] e e₁ ∧ Quiet e e₁ ∧ e₁.subscriptions = e.subscriptions ∧
      e₁.incoming = (e.incoming.receive e.now peer m).2.2 ∧
      e.receiveReliably peer m =
        if (e.incoming.receive e.now peer m).1 = .forward m then e₁.accept peer m else e₁ := by
  let replies := (e.incoming.receive e.now peer m).2.1.map (peer, ·)
  let e₁ := { e with incoming := (e.incoming.receive e.now peer m).2.2 }.transmitAll replies
  have hreplies : ∀ x ∈ replies, e.Holds x.1 x.2 ∨ Says x.1 x.2 := by
    intro x hx
    obtain ⟨answer, hanswer, rfl⟩ := List.mem_map.1 hx
    rcases Incoming.sent_receive hanswer with hsignaled | hstored
    · exact .inr (hsignal _ _ hsignaled)
    · exact .inl (.kept _ hstored)
  have hacts : Acts (fun p m => e.Holds p m ∨ Says p m) last [] [] e e₁ :=
    (Acts.incoming e hnow (.receive peer m) fun _ _ hsent => by cases hsent).trans
      (Acts.transmitAll replies hreplies _)
  have hquiet : Quiet e e₁ :=
    (Quiet.layers e _ _ _ _ _).trans (Quiet.frame.transmitAll replies _)
  obtain ⟨log, hlog⟩ : ∃ log, e₁ =
      { e with incoming := (e.incoming.receive e.now peer m).2.2, log } :=
    transmitAll_frame _ _
  refine ⟨e₁, hacts.mono fun _ _ hm => hm, hquiet, by rw [hlog], by rw [hlog], ?_⟩
  unfold receiveReliably
  rcases e.incoming.lets_receive e.now peer m with hnew | hknown
  · -- nobody observes, and there are no blocks, so it comes to the service as it is
    have htransfers : e₁.transfers.receive e₁.now peer m = (.forward m, e₁.transfers) :=
      Transfers.receive_of_plain hplain _ _ _
    have hsubscriptions : e₁.subscriptions.receive peer m = (.forward m, e₁.subscriptions) := by
      refine Subscriptions.receive_of_plain hplain ?_ peer
      rw [hlog]
      exact hnone
    rw [if_pos hnew]
    simp only [hnew]
    show e₁.receiveInBlocks peer m = _
    simp only [receiveInBlocks, htransfers, receiveObserved, hsubscriptions]
  · rw [if_neg (by rw [hknown]; exact nofun)]
    simp only [hknown]
    rfl

/-- **A plain message is dealt with.**  It may be answered by a signal or by what was stored for
its duplicates.  If it is admitted it passes the other layers as well. -/
theorem absorb_of_plain (hplain : m.IsPlain) (hnone : e.Unobserved) (hnow : e.now ≤ last)
    (hsignal : ∀ peer m, m.IsSignal → Says peer m) (peer : Endpoint) :
    ∃ e₁, Acts Says last [] [] e e₁ ∧ Quiet e e₁ ∧ e₁.subscriptions = e.subscriptions ∧
      (e.Admits peer m → e₁.incoming = (e.incoming.receive e.now peer m).2.2) ∧
      e.absorb peer m = if e.Admits peer m then e₁.accept peer m else e₁ := by
  let e₀ : Engine := { e with outgoing := (e.outgoing.receive peer m).2.2 }
  have hclosed : Acts Says last [] [] e e₀ :=
    Acts.outgoing e _ fun _ _ hm => .inl (Outgoing.openMessage?_receive hm)
  have hquiet : Quiet e e₀ := Quiet.layers e _ _ _ _ _
  rcases e.outgoing.lets_receive peer m with hpassed | hconsumed
  · obtain ⟨e₁, hacts, hquiet₁, hsubscriptions, hincoming, hreliably⟩ :=
      receiveReliably_of_plain (e := e₀) hplain hnone hnow hsignal peer
    refine ⟨e₁, hclosed.trans hacts, hquiet.trans hquiet₁, hsubscriptions, fun _ => hincoming, ?_⟩
    have habsorb : e.absorb peer m = e₀.receiveReliably peer m := by
      unfold absorb
      simp only [hpassed]
      rfl
    rw [habsorb, hreliably]
    exact if_congr (and_iff_right hpassed).symm rfl rfl
  · have hrefused : ¬ e.Admits peer m := by
      rintro ⟨hpassed, -⟩
      rw [hconsumed] at hpassed
      cases hpassed
    refine ⟨e₀, hclosed, hquiet, rfl, fun h => absurd h hrefused, ?_⟩
    rw [if_neg hrefused]
    unfold absorb
    simp only [hconsumed]
    rfl

end Engine

end Plain

end Coap
