/-
# What a message elicits

Whatever a node sends because a message came in, it sends while the message passes the layers, or
later, when a handler goes on or a timer fires.  For a message that is no request it is all sent
while the message passes, and it is at most one empty signal: `echo` says which.  No signal has an
echo of its own.
-/
import Coap.Proofs.Engine.Answering

namespace Coap

/-! ## The outer layers -/

section Layers

variable {peer : Endpoint} {m : Message}

/-- What the layer of acknowledgements says to a message that is no request. -/
def Message.receipt (m : Message) : List Message :=
  match m.type with
  | .confirmable => if m.isResponse then [.emptyAck m.id] else [.resetOf m.id]
  | _ => []

/-- Only a confirmable message is owed an acknowledgement. -/
theorem Message.receipt_of_type (h : m.type ≠ .confirmable) : m.receipt = [] := by
  cases htype : m.type with
  | confirmable => exact absurd htype h
  | nonConfirmable | acknowledgement | reset => simp only [receipt, htype]

/-- A message that is no request puts no acknowledgement off. -/
theorem Incoming.receive_of_not_request {s : Incoming} (hrequest : ¬ m.isRequest = true)
    (t : Instant) (peer : Endpoint) : (s.receive t peer m).2.1 = m.receipt ∧
      (s.receive t peer m).2.2.schedule = s.schedule := by
  have hschedule (key : MessageKey) (state : AckState) (lifetime : Duration) :
      (s.remember t key state lifetime).2.schedule = s.schedule := by
    unfold Incoming.remember
    split <;> rfl
  cases htype : m.type with
  | acknowledgement | reset => simp only [Incoming.receive, Message.receipt, htype, and_self]
  | nonConfirmable => simp only [Incoming.receive, Message.receipt, htype, hschedule, and_self]
  | confirmable =>
    cases hmeaning : m.code.meaning with
    | request method =>
      refine absurd ?_ hrequest
      simp [Message.isRequest, Code.isRequest, Code.method?, hmeaning]
    | response | empty | reserved =>
      simp [Incoming.receive, Message.receipt, htype, hmeaning, Message.isResponse, Code.isResponse,
        Code.status?, hschedule]

/-- What is neither an acknowledgement nor a reset passes the layer of exchanges. -/
theorem Outgoing.receive_of_opening {s : Outgoing}
    (htype : m.type = .confirmable ∨ m.type = .nonConfirmable) :
    (s.receive peer m).1 = .forward m := by
  rcases htype with htype | htype <;> simp only [Outgoing.receive, htype]

end Layers

namespace Engine

variable {e e' e'' : Engine} {peer : Endpoint} {m m' : Message} {l l' : List Message}

/-! ## Sending and nothing else -/

/-- Messages for a peer, as long as there is an outbox to put them into. -/
def posted (e : Engine) (peer : Endpoint) (l : List Message) : List (Endpoint × Message) :=
  if e.outboxOpen then l.map (peer, ·) else []

/-- Of nothing, nothing is posted. -/
theorem posted_nil (e : Engine) (peer : Endpoint) : e.posted peer [] = [] := by
  unfold posted
  split <;> rfl

theorem posted_append (e : Engine) (peer : Endpoint) (l l' : List Message) :
    e.posted peer (l ++ l') = e.posted peer l ++ e.posted peer l' := by
  unfold posted
  split
  · exact List.map_append
  · rfl

/-- Messages are put into the outbox.  No exchange is opened, no acknowledgement is put off, and
no handler has to go on, so nothing is left that could be sent later. -/
structure Elicits (e : Engine) (peer : Endpoint) (l : List Message) (e' : Engine) : Prop where
  sent : e'.sent = e.sent ++ e.posted peer l
  outboxOpen : e'.outboxOpen = e.outboxOpen
  schedule : e'.incoming.schedule = e.incoming.schedule
  delayed : e'.delayed = e.delayed
  repeats : ∀ k m, e'.outgoing.openMessage? k = some m → e.outgoing.openMessage? k = some m

namespace Elicits

/-- A silent step elicits nothing. -/
theorem of_silent (h : Silent e e') : Elicits e peer [] e' where
  sent := by rw [h.sent, posted_nil, List.append_nil]
  outboxOpen := h.outboxOpen
  schedule := congrArg Incoming.schedule h.incoming
  delayed := h.delayed
  repeats := h.repeats

theorem refl (e : Engine) : Elicits e peer [] e := of_silent (.refl e)

/-- What is elicited in two steps is elicited in this order. -/
theorem trans (h : Elicits e peer l e') (h' : Elicits e' peer l' e'') :
    Elicits e peer (l ++ l') e'' where
  sent := by
    have hposted : e'.posted peer l' = e.posted peer l' := by rw [posted, posted, h.outboxOpen]
    rw [h'.sent, h.sent, hposted, posted_append, List.append_assoc]
  outboxOpen := h'.outboxOpen.trans h.outboxOpen
  schedule := h'.schedule.trans h.schedule
  delayed := h'.delayed.trans h.delayed
  repeats k m hm := h.repeats k m (h'.repeats k m hm)

theorem trans_silent (h : Elicits e peer l e') (h' : Silent e' e'') : Elicits e peer l e'' :=
  List.append_nil l ▸ h.trans (of_silent h')

/-- A message that is transmitted is elicited as it is. -/
theorem transmit (e : Engine) (peer : Endpoint) (m : Message) :
    Elicits e peer [m] (e.transmit peer m) := by
  by_cases hopen : e.outboxOpen = true
  · refine ⟨?_, ?_, ?_, ?_, ?_⟩
    · rw [sent_transmit hopen, posted, if_pos hopen]
      rfl
    all_goals
      rw [Engine.transmit, if_pos hopen]
      first | rfl | exact fun _ _ hm => hm
  · rw [Engine.transmit, if_neg hopen]
    exact ⟨by rw [posted, if_neg hopen, List.append_nil], rfl, rfl, rfl, fun _ _ hm => hm⟩

theorem transmitAll (l : List Message) (e : Engine) :
    Elicits e peer l (e.transmitAll (l.map (peer, ·))) := by
  induction l generalizing e with
  | nil => exact refl e
  | cons m rest ih => exact (transmit e peer m).trans (ih _)

end Elicits

/-! ## The echo of a message -/

/-- A response did not come before, and nobody waits for it. -/
def Unasked (e : Engine) (peer : Endpoint) (m : Message) : Prop :=
  (e.incoming.live? e.now ⟨peer, m.id⟩).isNone ∧ (e.conversations.get? ⟨peer, m.token⟩).isNone

instance : Decidable (e.Unasked peer m) := inferInstanceAs (Decidable (_ ∧ _))

/-- A message is unasked if nothing is known of it. -/
theorem unasked_iff : e.Unasked peer m ↔ ¬ e.incoming.Remembers e.now ⟨peer, m.id⟩ ∧
    e.conversations.get? ⟨peer, m.token⟩ = none := by
  rw [Unasked, Option.isNone_iff_eq_none, Option.isNone_iff_eq_none, Incoming.live?_eq_none_iff]

/-- What a node says to a message that is no request. -/
def echo (e : Engine) (peer : Endpoint) (m : Message) : List Message :=
  m.receipt ++
    if m.type = .nonConfirmable ∧ m.isResponse ∧ e.Unasked peer m then [.resetOf m.id] else []

/-- An echo is at most one empty signal. -/
theorem echo_cases (e : Engine) (peer : Endpoint) (m : Message) :
    e.echo peer m = [] ∨ (m.type = .confirmable ∨ m.type = .nonConfirmable) ∧
      (e.echo peer m = [.emptyAck m.id] ∨ e.echo peer m = [.resetOf m.id]) := by
  cases htype : m.type with
  | confirmable =>
    refine .inr ⟨.inl rfl, ?_⟩
    by_cases hresponse : m.isResponse = true <;> simp [echo, Message.receipt, htype, hresponse]
  | nonConfirmable =>
    by_cases hrejected : m.isResponse = true ∧ e.Unasked peer m <;>
      simp [echo, Message.receipt, htype, hrejected]
  | acknowledgement | reset => exact .inl (by simp [echo, Message.receipt, htype])

/-! ## From layer to layer -/

/-- What the exchanges elicit is the receipt of a message. -/
theorem elicits_heard (hrequest : ¬ m.isRequest = true) (e : Engine) (peer : Endpoint) :
    Elicits e peer m.receipt (e.heard peer m) := by
  let e₀ : Engine := { e with outgoing := (e.outgoing.receive peer m).2.2 }
  have hclosed : Elicits e peer [] e₀ := .of_silent (.closed e peer m)
  obtain ⟨hsent, hschedule⟩ :=
    Incoming.receive_of_not_request (s := e.incoming) hrequest e.now peer
  unfold heard
  simp only
  split
  · have hheard : Elicits e₀ peer [] { e₀ with incoming := (e.incoming.receive e.now peer m).2.2 } :=
      ⟨(Elicits.refl e₀).sent, rfl, hschedule, rfl, fun _ _ hm => hm⟩
    rw [hsent]
    exact (hclosed.trans hheard).trans (.transmitAll _ _)
  · -- only an acknowledgement or a reset is consumed
    next hconsumed =>
    have htype : m.type ≠ .confirmable := fun htype =>
      hconsumed m (Outgoing.receive_of_opening (.inl htype))
    rw [Message.receipt_of_type htype]
    exact hclosed

/-- A non-confirmable response that nobody waits for elicits a rejection. -/
theorem elicits_deliver (e : Engine) (peer : Endpoint) (m : Message) :
    Elicits e peer (if m.type = .nonConfirmable ∧ (e.conversations.get? ⟨peer, m.token⟩).isNone
      then [.resetOf m.id] else []) (e.deliver peer m) := by
  cases hc : e.conversations.get? ⟨peer, m.token⟩ with
  | some c =>
    rw [if_neg fun h => by cases h.2]
    exact .of_silent (.deliver hc)
  | none =>
    rw [deliver_of_none hc]
    by_cases htype : m.type = .nonConfirmable
    · rw [if_pos htype, if_pos ⟨htype, rfl⟩]
      exact .transmit e peer _
    · rw [if_neg htype, if_neg fun h => htype h.1]
      exact .refl e

/-- The inner layers hand a message on that is no request, and nobody but the engine itself says
anything to it. -/
theorem elicits_receiveInBlocks (hrequest : ¬ m.isRequest = true) (e : Engine) (peer : Endpoint) :
    Elicits e peer (if m.type = .nonConfirmable ∧ m.isResponse ∧
        (e.conversations.get? ⟨peer, m.token⟩).isNone then [.resetOf m.id] else [])
      (e.receiveInBlocks peer m) := by
  have htransfers : e.transfers.receive e.now peer m = (.forward m, e.transfers) := by
    simp [Transfers.receive, hrequest]
  have hlayer : Elicits e peer [] { e with subscriptions := (e.subscriptions.receive peer m).2 } :=
    .of_silent (.books e _ _ _ _ _)
  unfold receiveInBlocks receiveObserved
  simp only [htransfers]
  rcases e.subscriptions.lets_receive peer m with hlets | hconsumed
  · simp only [hlets, accept_eq, if_neg hrequest]
    by_cases hresponse : m.isResponse = true
    · simp only [hresponse, if_true, true_and]
      exact hlayer.trans (elicits_deliver _ peer m)
    · rw [if_neg hresponse, if_neg fun h => hresponse h.2.1]
      exact hlayer
  · have htype : m.type = .reset := by
      unfold Subscriptions.receive at hconsumed
      split at hconsumed
      · next hreset => exact hreset.1
      · split at hconsumed <;> cases hconsumed
    simp only [hconsumed, htype, reduceCtorEq, false_and, if_false]
    exact hlayer

/-- A non-confirmable message is admitted when it comes for the first time. -/
theorem admits_iff_of_nonConfirmable (htype : m.type = .nonConfirmable) :
    e.Admits peer m ↔ (e.incoming.live? e.now ⟨peer, m.id⟩).isNone := by
  rw [Admits, Incoming.receive_eq_forward_iff (.inr htype), Option.isNone_iff_eq_none,
    Incoming.live?_eq_none_iff]
  exact and_iff_right (Outgoing.receive_of_opening (.inr htype))

/-- **What a message elicits that is no request.** -/
theorem elicits_absorb (hrequest : ¬ m.isRequest = true) (e : Engine) (peer : Endpoint) :
    Elicits e peer (e.echo peer m) (e.absorb peer m) := by
  have hheard := elicits_heard hrequest e peer
  have hinner := elicits_receiveInBlocks hrequest (e.heard peer m) peer
  have hconv : (e.heard peer m).conversations = e.conversations := by
    obtain ⟨_, _, _, hframe⟩ := heard_frame e peer m
    rw [hframe]
  rw [hconv] at hinner
  rw [absorb_eq_heard, echo]
  by_cases htype : m.type = .nonConfirmable
  · by_cases hadmits : e.Admits peer m
    · have hunasked : e.Unasked peer m ↔ (e.conversations.get? ⟨peer, m.token⟩).isNone :=
        and_iff_right ((admits_iff_of_nonConfirmable htype).1 hadmits)
      simp only [if_pos hadmits, hunasked]
      exact hheard.trans hinner
    · have hknown : ¬ e.Unasked peer m := fun h =>
        hadmits ((admits_iff_of_nonConfirmable htype).2 h.1)
      rw [if_neg hadmits, if_neg fun h => hknown h.2.2, List.append_nil]
      exact hheard
  · rw [if_neg fun h => htype h.1] at hinner
    rw [if_neg fun h => htype h.1, List.append_nil]
    split
    · simpa only [List.append_nil] using hheard.trans hinner
    · exact hheard

/-- An acknowledgement or a reset elicits nothing, even with the code of a request. -/
theorem elicits_absorb_of_closing (htype : m.type = .acknowledgement ∨ m.type = .reset)
    (e : Engine) (peer : Endpoint) : Elicits e peer [] (e.absorb peer m) := by
  by_cases hrequest : m.isRequest = true
  · have hconsumed : e.outgoing.receive peer m = (.consume, none, e.outgoing) := by
      rcases htype with htype | htype <;> simp [Outgoing.receive, htype, hrequest]
    unfold absorb
    simp only [hconsumed]
    exact .refl e
  · have hecho : e.echo peer m = [] := by
      rcases htype with htype | htype <;> simp [echo, Message.receipt, htype]
    exact hecho ▸ elicits_absorb hrequest e peer

/-- The exchange that a message ends is concluded without a word. -/
theorem Elicits.receive (h : Elicits e peer l (e.absorb peer m)) :
    Elicits e peer l (e.receive peer m) :=
  h.trans_silent (clerical_receive e peer m).silent

end Engine

end Coap
