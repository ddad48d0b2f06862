/-
# Acknowledgements that a node sends

Whether a response may still travel on the acknowledgement of its request is decided when it
leaves: exactly if no acknowledgement has gone out for the request.  A node sends messages for
many reasons, and each of them keeps to that (`Minds`), so that what was sent since the request
came tells whether its acknowledgement waits.
-/
import Coap.Proofs.Engine.Replies

namespace Coap

/-! ## Acknowledgements among messages -/

namespace Incoming

variable {key : MessageKey}

/-- Acknowledgements among messages are those of their parts. -/
theorem acksIn_append (l l' : List (Endpoint × Message)) :
    acksIn key (l ++ l') = acksIn key l ++ acksIn key l' := by
  simp [acksIn]

/-- Where nothing is an acknowledgement, none acknowledges the key. -/
theorem acksIn_eq_nil {l : List (Endpoint × Message)}
    (h : ∀ x ∈ l, x.2.type ≠ .acknowledgement) : acksIn key l = [] := by
  have hnone : l.filter (fun e => e.1 = key.peer ∧ e.2.type = .acknowledgement ∧
      e.2.id = key.id) = [] := by
    refine List.filter_eq_nil_iff.2 fun x hx => ?_
    simp [h x hx]
  rw [acksIn, hnone, List.map_nil]

end Incoming

namespace Engine

open Incoming (acksIn)

variable {e e' e'' : Engine} {key : MessageKey} {peer : Endpoint} {m : Message}
  {l : List (Endpoint × Message)} {counts : Prop}

/-! ## What was sent -/

/-- What was sent from one node to another that it has become. -/
def sentSince (e e' : Engine) : List (Endpoint × Message) := e'.sent.drop e.sent.length

/-- What was sent since then is what was added. -/
theorem sentSince_of_append (h : e'.sent = e.sent ++ l) : e.sentSince e' = l := by
  rw [sentSince, h, List.drop_left]

/-- Where nothing was added, nothing was sent. -/
theorem sentSince_of_eq (h : e'.sent = e.sent) : e.sentSince e' = [] :=
  sentSince_of_append (h.trans (List.append_nil _).symm)

/-- What was sent in two steps is what was sent in each. -/
theorem sentSince_trans (h : e.sent <+: e'.sent) (h' : e'.sent <+: e''.sent) :
    e.sentSince e'' = e.sentSince e' ++ e'.sentSince e'' := by
  obtain ⟨l, hl⟩ := h
  obtain ⟨l', hl'⟩ := h'
  have hall : e''.sent = e.sent ++ (l ++ l') := by rw [← hl', ← hl, List.append_assoc]
  rw [sentSince_of_append hall, sentSince_of_append hl.symm, sentSince_of_append hl'.symm]

/-- To transmit takes nothing back. -/
theorem prefix_transmit (e : Engine) (peer : Endpoint) (m : Message) :
    e.sent <+: (e.transmit peer m).sent := by
  unfold transmit
  split
  · rw [sent_note]
    exact List.prefix_append _ _
  · exact List.prefix_refl _

/-- To transmit many messages takes nothing back either. -/
theorem prefix_transmitAll (messages : List (Endpoint × Message)) (e : Engine) :
    e.sent <+: (e.transmitAll messages).sent := by
  induction messages generalizing e with
  | nil => exact List.prefix_refl _
  | cons x rest ih => exact (prefix_transmit e x.1 x.2).trans (ih _)

/-! ## Steps -/

/-- What holds of every node that was started: of the responses and acknowledgements it keeps,
and that only confirmable messages are repeated. -/
structure Regular (e : Engine) : Prop where
  sound : e.incoming.Sound
  scheduled : e.incoming.Scheduled e.now
  repeats : ∀ k m, e.outgoing.openMessage? k = some m → m.type = .confirmable

/-- What every step of a node keeps to.  What was sent stays sent, the outbox is not opened again,
and the settings are the same; and, if that counts, the acknowledgement of a key waits until one
goes out. -/
structure Minds (counts : Prop) (key : MessageKey) (e e' : Engine) : Prop where
  said : e.sent <+: e'.sent
  outboxOpen : e'.outboxOpen = true → e.outboxOpen = true
  maxExponent : e'.transfers.maxExponent = e.transfers.maxExponent
  regular : e.Regular → e'.Regular
  waits : counts → e.Regular → e'.outboxOpen = true →
    (e'.incoming.Waits key ↔ e.incoming.Waits key ∧ acksIn key (e.sentSince e') = [])

namespace Minds

/-- Minding goes on from step to step. -/
theorem trans (h : Minds counts key e e') (h' : Minds counts key e' e'') :
    Minds counts key e e'' where
  said := h.said.trans h'.said
  outboxOpen hopen := h.outboxOpen (h'.outboxOpen hopen)
  maxExponent := h'.maxExponent.trans h.maxExponent
  regular hregular := h'.regular (h.regular hregular)
  waits hcounts hregular hopen := by
    rw [h'.waits hcounts (h.regular hregular) hopen,
      h.waits hcounts hregular (h'.outboxOpen hopen), sentSince_trans h.said h'.said,
      Incoming.acksIn_append, List.append_eq_nil_iff, and_assoc]

/-- Nothing is sent, and what was received is as before. -/
theorem of_same (hsent : e'.sent = e.sent) (hopen : e'.outboxOpen = e.outboxOpen)
    (hexponent : e'.transfers.maxExponent = e.transfers.maxExponent)
    (hincoming : e'.incoming = e.incoming) (hnow : e.now ≤ e'.now)
    (hrepeats : ∀ k m, e'.outgoing.openMessage? k = some m →
      e.outgoing.openMessage? k = some m) : Minds counts key e e' where
  said := hsent ▸ List.prefix_refl _
  outboxOpen h := hopen ▸ h
  maxExponent := hexponent
  regular h :=
    ⟨hincoming ▸ h.sound, hincoming ▸ h.scheduled.later hnow,
      fun k m hm => h.repeats k m (hrepeats k m hm)⟩
  waits _ _ _ := by
    rw [hincoming, sentSince_of_eq hsent]
    exact (and_iff_left rfl).symm

/-- Where nothing is sent, nothing is acknowledged. -/
theorem silent (h : Silent e e') : Minds counts key e e' :=
  of_same h.sent h.outboxOpen h.maxExponent h.incoming (Nat.le_of_eq h.now.symm) h.repeats

/-- The layers of exchanges take notice of something, and messages go out. -/
theorem exchanging (e : Engine) (outgoing : Outgoing) (incoming : Incoming)
    (messages : List (Endpoint × Message))
    (hsound : e.incoming.Sound → incoming.Sound)
    (hscheduled : e.incoming.Scheduled e.now → incoming.Scheduled e.now)
    (hrepeats : ∀ k m, outgoing.openMessage? k = some m →
      e.outgoing.openMessage? k = some m ∨ m.type = .confirmable)
    (hwaits : counts → e.Regular →
      (incoming.Waits key ↔ e.incoming.Waits key ∧ acksIn key messages = [])) :
    Minds counts key e ({ e with outgoing, incoming }.transmitAll messages) := by
  have hsaid := prefix_transmitAll messages { e with outgoing, incoming }
  have hsent (hopen : e.outboxOpen = true) :=
    sent_transmitAll (e := { e with outgoing, incoming }) hopen messages
  obtain ⟨log, hlog⟩ := transmitAll_frame messages { e with outgoing, incoming }
  rw [hlog] at hsaid hsent ⊢
  exact {
    said := hsaid
    outboxOpen := fun h => h
    maxExponent := rfl
    regular := fun h => ⟨hsound h.sound, hscheduled h.scheduled, fun k m hm =>
      (hrepeats k m hm).elim (h.repeats k m) fun htype => htype⟩
    waits := by
      intro hcounts hregular hopen
      have hnew : e.sentSince { e with outgoing, incoming, log } = messages :=
        sentSince_of_append (hsent hopen)
      rw [hnew]
      exact hwaits hcounts hregular }

/-- Messages go out that are no acknowledgements of the key, if that counts. -/
theorem transmitAll (messages : List (Endpoint × Message)) (e : Engine)
    (hnone : counts → acksIn key messages = []) :
    Minds counts key e (e.transmitAll messages) :=
  exchanging e e.outgoing e.incoming messages id id (fun _ _ => .inl) fun hcounts _ => by
    rw [hnone hcounts]
    exact (and_iff_left rfl).symm

/-- A message that goes out acknowledges what waits for it, if it counts. -/
theorem sendReliably (e : Engine) (peer : Endpoint) (hm : counts → ¬ m.isEmpty) :
    Minds counts key e (e.sendReliably peer m).2 := by
  obtain ⟨outgoing, messages, hsent, hacks, hrepeats⟩ := sendReliably_frame e peer m
  rw [hsent]
  refine exchanging e outgoing _ messages Incoming.sound_send (·.send peer m) hrepeats ?_
  intro hcounts _
  have hwaits : (e.incoming.send peer m).2.Waits key ↔ _ := Incoming.waits_send (t := e.now)
  have hanswers : Incoming.Event.answersRequest (.send peer m) = true := by
    simpa [Incoming.Event.answersRequest] using hm hcounts
  rw [if_pos hanswers] at hwaits
  rw [hacks]
  exact hwaits

/-- Only confirmable messages are repeated. -/
theorem repeatDue (e : Engine) : Minds counts key e (repeatDue e.now e) := by
  refine exchanging e (e.outgoing.fire e.outboxOpen e.now).2 e.incoming _ id id
    (fun k m hm => .inl (Outgoing.openMessage?_fire hm)) fun _ hregular => ?_
  have hnone : acksIn key (e.outgoing.fire e.outboxOpen e.now).1.sent = [] := by
    refine Incoming.acksIn_eq_nil fun x hx htype => ?_
    obtain ⟨id, hopened⟩ := Outgoing.open_of_fire hx
    rw [hregular.repeats _ _ hopened] at htype
    cases htype
  rw [hnone]
  exact (and_iff_left rfl).symm

/-- A sweep acknowledges what is due. -/
theorem sweepDue (e : Engine) : Minds counts key e (sweepDue e.now e) := by
  unfold Engine.sweepDue
  split
  · have hsound (hs : e.incoming.Sound) : (e.incoming.step e.now .sweep).Sound :=
      Incoming.sound_step hs
    exact exchanging e e.outgoing (e.incoming.sweep e.now).2 _ hsound (·.sweep) (fun _ _ => .inl)
      fun _ hregular => Incoming.waits_sweep hregular.scheduled
  · exact silent (.refl e)

/-- Whatever a node sends, if it is not empty. -/
theorem frame : SendingFrame (Minds counts key) fun _ m => counts → ¬ m.isEmpty where
  header hheader hm hcounts := hheader.not_isEmpty (hm hcounts)
  trans := trans
  silent := silent
  reliably e peer _ hm := sendReliably e peer hm
  rejected e peer id := transmitAll [(peer, .resetOf id)] e fun _ =>
    Incoming.acksIn_of_type (by simp [Message.resetOf, Message.bare])
  repeated := repeatDue
  swept := sweepDue
  clock e now hnow := of_same rfl rfl rfl rfl hnow fun _ _ hm => hm
  closed e := {
    said := List.prefix_refl _
    outboxOpen := nofun
    maxExponent := rfl
    regular := fun h => ⟨h.sound, h.scheduled, h.repeats⟩
    waits := nofun }

/-- Requests that wait for their responses do not matter here. -/
theorem delayed (e : Engine) (delayed : List Delayed) :
    Minds counts key e { e with delayed } :=
  of_same rfl rfl rfl rfl (Nat.le_refl _) fun _ _ hm => hm

end Minds

/-! ## Messages that come in -/

/-- The ID of a request is taken by a message that is let in: by a new request.  Other messages
can take it only if a sweep is overdue, which would have sent the acknowledgement of the old
request. -/
def Reuses (key : MessageKey) (e : Engine) (event : Event) : Prop :=
  ∃ peer m, event.Brings peer m ∧ e.incoming.Opens e.now key (.receive peer m) ∧
    (m.isRequest = true ∨ e.incoming.nextSweep ≤ e.now)

/-- A message that is let in makes an end of what waited under its ID only if it reuses that. -/
theorem waits_receive (h : e.Regular) {event : Event} (hbrings : event.Brings peer m)
    (hnot : ¬ e.Reuses key event) :
    (e.incoming.receive e.now peer m).2.2.Waits key ↔ e.incoming.Waits key ∧
      (if m.isResponse then [] else
        acksIn key ((e.incoming.receive e.now peer m).2.1.map (peer, ·))) = [] := by
  by_cases hopens : e.incoming.Opens e.now key (.receive peer m)
  · have hother : ¬ (m.isRequest = true ∨ e.incoming.nextSweep ≤ e.now) :=
      fun hreused => hnot ⟨peer, m, hbrings, hopens, hreused⟩
    rw [not_or] at hother
    refine iff_of_false ?_ fun hwaits => ?_
    · rw [Incoming.waits_of_opens hopens]
      exact fun hasks => hother.1 hasks.2
    · -- what waits is remembered as long as no sweep is overdue
      have hknown := h.scheduled.remembers hwaits.1 (Nat.lt_of_not_le hother.2)
      exact (Incoming.opens_receive_iff.1 hopens).2.2 hknown
  · have hwaits := Incoming.waits_receive h.sound hopens
    cases hresponse : m.isResponse with
    | true => simpa [Incoming.Event.answersRequest, hresponse] using hwaits
    | false => simpa [Incoming.Event.answersRequest, hresponse, Incoming.output] using hwaits

/-- What is heard acknowledges as the incoming exchanges say. -/
theorem minds_heard (e : Engine) (peer : Endpoint) (m : Message)
    (hwaits : counts → e.Regular → ((e.incoming.receive e.now peer m).2.2.Waits key ↔
      e.incoming.Waits key ∧
        acksIn key ((e.incoming.receive e.now peer m).2.1.map (peer, ·)) = [])) :
    Minds counts key e (e.heard peer m) := by
  unfold heard
  simp only
  split
  · exact Minds.exchanging e _ _ _ Incoming.sound_receive (·.receive peer m)
      (fun _ _ hm => .inl (Outgoing.openMessage?_receive hm)) hwaits
  · exact Minds.silent (.closed e peer m)

/-- A confirmable request that is let in is remembered, and nothing goes out for it yet. -/
theorem heard_of_opens (hasks : Incoming.Asks m)
    (hopens : e.incoming.Opens e.now key (.receive peer m)) : e.heard peer m = { e with
      outgoing := (e.outgoing.receive peer m).2.2
      incoming := (e.incoming.receive e.now peer m).2.2 } := by
  have hpassed : (e.outgoing.receive peer m).1 = .forward m := by
    simp [Outgoing.receive, hasks.1]
  obtain ⟨rfl, -, hnew⟩ := Incoming.opens_receive_iff.1 hopens
  have hnothing : (e.incoming.receive e.now peer m).2.1 = [] := by
    rw [Incoming.receive_of_asks hasks, Incoming.receiveRequest,
      Incoming.live?_eq_none_iff.2 hnew]
  unfold heard
  simp only [hpassed, hnothing]
  rfl

/-- Whether the acknowledgements that go out at an event are those of requests.  The one for a
response of the peer is not, nor is one for what is no message; and an empty one that is
submitted only passes. -/
def Event.answersRequest : Event → Bool
  | .submit _ m _ => !m.isEmpty
  | .handle _ (.error _) => false
  | .handle _ (.ok m) | .absorb _ m => !m.isResponse
  | _ => true

/-- The acknowledgements of a key that go out at an event, up to the moment at which the node
has become another. -/
def acksUpTo (key : MessageKey) (e : Engine) (event : Event) (e' : Engine) : List Message :=
  if event.answersRequest then acksIn key (e.sentSince e') else []

/-- All answers that leave in an event are messages. -/
def Answerable (e : Engine) (event : Event) : Prop :=
  ∀ a ∈ e.answerings event, a.response.isResponse = true

/-- An answer acknowledges its request, if it is a response. -/
theorem minds_answer {a : Answering} (h : counts → a.response.isResponse = true) :
    Minds counts key a.node a.after := by
  refine Minds.frame.sendThrough a.node a.peer (fun hcounts => ?_) (some a.request)
  have hfull := Message.not_isEmpty_of_isResponse (h hcounts)
  obtain ⟨_, _, haddressed, -⟩ := addressTo_eq a.request hfull
  rw [haddressed]
  exact hfull

/-- A rejection does not count. -/
theorem minds_reject (e : Engine) (peer : Endpoint) (fault : Datagram.DecodeFault) :
    Minds False key e (e.reject peer fault) := by
  obtain ⟨outgoing, messages, hreject, hrepeats⟩ := reject_frame e peer fault
  rw [hreject]
  exact .exchanging e outgoing e.incoming messages (fun h => h) (fun h => h) hrepeats nofun

/-- To transmit leaves the incoming exchanges alone. -/
theorem incoming_transmitAll (messages : List (Endpoint × Message)) (e : Engine) :
    (e.transmitAll messages).incoming = e.incoming := by
  obtain ⟨log, hlog⟩ := transmitAll_frame messages e
  rw [hlog]

/-- A rejection leaves the incoming exchanges alone. -/
theorem incoming_reject (e : Engine) (peer : Endpoint) (fault : Datagram.DecodeFault) :
    (e.reject peer fault).incoming = e.incoming := by
  obtain ⟨outgoing, messages, hreject, -⟩ := reject_frame e peer fault
  rw [hreject, incoming_transmitAll]

/-- Whatever happens, what was sent stays sent, and the settings are the same. -/
theorem passes_step {event : Event} (htimely : event.Timely e) :
    Passes (Minds False key) e (e.answerings event) (e.step event) :=
  Minds.frame.passes_step Minds.delayed htimely (.of_full fun hm _ => hm)
    (fun peer m _ => minds_heard e peer m nofun)
    (fun peer fault _ => minds_reject e peer fault)
    (fun peer m r _ => Minds.frame.submit e peer m r fun _ _ => nofun)

/-- Empty messages leave what was received as it is. -/
theorem sameIncoming_frame :
    MessageFrame (fun e e' => e'.incoming = e.incoming) fun _ m => m.isEmpty = true where
  trans h h' := h'.trans h
  silent h := h.incoming
  rejected e peer id := by
    unfold transmit
    split <;> rfl
  header hheader hm := by rwa [Message.isEmpty, hheader.code_eq]
  reliably e peer m hm := by
    have hsame : (e.incoming.send peer m).2 = e.incoming := by simp [Incoming.send, hm]
    obtain ⟨outgoing, messages, hsent, -, -⟩ := sendReliably_frame e peer m
    rw [hsent, incoming_transmitAll]
    exact hsame

/-- A response of the peer is answered by nothing, and leaves what waits as it is. -/
theorem waits_response {event : Event} (h : e.Regular) (hbrings : event.Brings peer m)
    (hnot : ¬ e.Reuses key event) (hresponse : m.isResponse = true) : e.answerings event = [] ∧
      ((e.step event).incoming.Waits key ↔ e.incoming.Waits key) := by
  have hrequest : ¬ m.isRequest = true := by
    rw [Message.isRequest_of_isResponse hresponse]
    exact Bool.false_ne_true
  have hnone : e.handed? peer m = none := by
    refine Option.eq_none_iff_forall_not_mem.2 fun request hhanded => hrequest ?_
    rw [Message.isRequest, ← (sameHeader_handed hhanded).code_eq]
    exact (handed?_eq_some_iff.1 hhanded).2.2.2
  have hwaits := waits_receive h hbrings hnot
  rw [if_pos hresponse] at hwaits
  -- what acknowledges a response of the peer does not count for a request
  have hheard : (e.heard peer m).incoming.Waits key ↔ e.incoming.Waits key := by
    unfold heard
    simp only
    split
    · rw [incoming_transmitAll]
      exact hwaits.trans (and_iff_left rfl)
    · exact Iff.rfl
  have habsorbed := sameIncoming_frame.absorb_of_not_request hrequest e peer
  have hanswerings : e.answerings (.absorb peer m) = [] := by
    unfold answerings
    simp only [hnone, Option.toList_none, List.flatMap_nil]
  rcases hbrings with rfl | rfl
  · refine ⟨hanswerings, ?_⟩
    show (e.receive peer m).incoming.Waits key ↔ _
    rw [(clerical_receive e peer m).incoming, habsorbed]
    exact hheard
  · refine ⟨hanswerings, ?_⟩
    show (e.absorb peer m).incoming.Waits key ↔ _
    rw [habsorbed]
    exact hheard

/-- An event whose acknowledgements are not those of requests makes no answer, and changes
nothing about what waits. -/
theorem waits_uncounted {event : Event} (h : e.Regular) (hnot : ¬ e.Reuses key event)
    (hcounted : ¬ event.answersRequest = true) : e.answerings event = [] ∧
      ((e.step event).incoming.Waits key ↔ e.incoming.Waits key) := by
  cases event with
  | submit peer m r =>
    have hempty : m.isEmpty = true := by simpa [Event.answersRequest] using hcounted
    refine ⟨rfl, ?_⟩
    have hsame := sameIncoming_frame.submit e peer m r fun sent hsent => by
      rwa [Message.isEmpty, code_withToken hsent]
    show (e.submit peer m r).2.incoming.Waits key ↔ _
    rw [hsame]
  | handle peer decoded =>
    cases decoded with
    | error fault =>
      refine ⟨rfl, ?_⟩
      show (e.reject peer fault).incoming.Waits key ↔ _
      rw [incoming_reject]
    | ok m =>
      exact waits_response h (.inl rfl) hnot (by simpa [Event.answersRequest] using hcounted)
  | absorb peer m =>
    exact waits_response h (.inr rfl) hnot (by simpa [Event.answersRequest] using hcounted)
  | _ => exact absurd rfl hcounted

/-- **The acknowledgement of a key waits until one goes out**, at every event that does not take
the ID for something else; this is so for each answer that leaves meanwhile, too. -/
theorem waits_step {event : Event} (h : e.Regular) (htimely : event.Timely e)
    (hnot : ¬ e.Reuses key event) (hanswerable : e.Answerable event) :
    ((e.step event).outboxOpen = true → ((e.step event).incoming.Waits key ↔
      e.incoming.Waits key ∧ e.acksUpTo key event (e.step event) = [])) ∧
    ∀ a ∈ e.answerings event, a.node.outboxOpen = true → (a.node.incoming.Waits key ↔
      e.incoming.Waits key ∧ e.acksUpTo key event a.node = []) := by
  by_cases hcounted : event.answersRequest = true
  · have hpasses : Passes (Minds True key) e (e.answerings event) (e.step event) := by
      refine Minds.frame.passes_step Minds.delayed htimely (.of_full fun hm _ => hm)
        (fun peer m hbrings => ?_) (fun peer fault hevent => ?_) (fun peer m r hevent => ?_)
      · have hnoResponse : ¬ m.isResponse = true := by
          rcases hbrings with rfl | rfl <;> simpa [Event.answersRequest] using hcounted
        refine minds_heard e peer m fun _ hregular => ?_
        have hwaits := waits_receive hregular hbrings hnot
        rwa [if_neg hnoResponse] at hwaits
      · rw [hevent] at hcounted
        cases hcounted
      · have hfull : ¬ m.isEmpty = true := by
          rw [hevent] at hcounted
          simpa [Event.answersRequest] using hcounted
        refine Minds.frame.submit e peer m r fun sent hsent _ => ?_
        rwa [Message.isEmpty, code_withToken hsent]
    obtain ⟨hstep, hnodes⟩ := hpasses.across (fun a ha => minds_answer fun _ => hanswerable a ha)
      Minds.trans
    simp only [acksUpTo, if_pos hcounted]
    exact ⟨hstep.waits trivial h, fun a ha => (hnodes a ha).1.waits trivial h⟩
  · obtain ⟨hnone, hwaits⟩ := waits_uncounted h hnot hcounted
    simp only [acksUpTo, if_neg hcounted, and_true]
    refine ⟨fun _ => hwaits, fun a ha => ?_⟩
    rw [hnone] at ha
    cases ha

end Engine

end Coap
