/-
# How a request is acknowledged

A confirmable request can be acknowledged from three sides: the timer sends an empty
acknowledgement when the response is late, a duplicate is acknowledged at once, and a response
may travel on the acknowledgement.  All three go by the record of the request.  `Answers` says
which acknowledgements can follow each other while this record goes from one state to the next,
and `answers_step` that every event keeps to that.
-/
import Coap.Proofs.Exchange.Received

namespace Coap.Incoming

variable {s : Incoming} {t : Instant} {key : MessageKey} {event : Event} {history : History}

/-! ## What leaves the layer -/

/-- What goes out to the peers when an event happens. -/
def output (s : Incoming) (t : Instant) : Event → List (Endpoint × Message)
  | .receive peer m => (s.receive t peer m).2.1.map (peer, ·)
  | .send peer m => [(peer, (s.send peer m).1)]
  | .sweep => (s.sweep t).1

/-- The acknowledgements among some messages that carry the ID of a key to its peer. -/
def acksIn (key : MessageKey) (sent : List (Endpoint × Message)) : List Message :=
  (sent.filter fun e => e.1 = key.peer ∧ e.2.type = .acknowledgement ∧ e.2.id = key.id).map (·.2)

/-- The acknowledgements of a key that go out in a history, at those events that count. -/
def acks (counts : Event → Bool) (s : Incoming) (key : MessageKey) : History → List Message
  | [] => []
  | (t, event) :: rest =>
    (if counts event then acksIn key (s.output t event) else []) ++
      acks counts (s.step t event) key rest

/-- Whether an acknowledgement that goes out at an event may be that of a request.  The one for
a response of the peer is not, and an empty one that is handed in only passes. -/
def Event.answersRequest : Event → Bool
  | .receive _ m => !m.isResponse
  | .send _ m => !m.isEmpty
  | .sweep => true

/-- The event is a message with this key that is let through and remembered. -/
def Opens (s : Incoming) (t : Instant) (key : MessageKey) : Event → Prop
  | .receive peer m => ⟨peer, m.id⟩ = key ∧ Watched m ∧ s.forwards t (.receive peer m)
  | _ => False

/-- Nothing that leaves acknowledges nothing. -/
@[simp] theorem acksIn_nil : acksIn key [] = [] := rfl

/-- Of what leaves, the acknowledgements are those of the first message and those of the others. -/
theorem acksIn_cons (e : Endpoint × Message) (l : List (Endpoint × Message)) :
    acksIn key (e :: l) = acksIn key [e] ++ acksIn key l := by
  rw [acksIn, ← List.singleton_append, List.filter_append, List.map_append, acksIn, acksIn]

/-- An acknowledgement with the ID of a key, sent to its peer, is one of that key. -/
theorem acksIn_singleton {peer : Endpoint} {m : Message} (hpeer : peer = key.peer)
    (htype : m.type = .acknowledgement) (hid : m.id = key.id) : acksIn key [(peer, m)] = [m] := by
  simp [acksIn, hpeer, htype, hid]

/-- Of messages of another type none is one. -/
theorem acksIn_of_type {peer : Endpoint} {m : Message} (h : m.type ≠ .acknowledgement) :
    acksIn key [(peer, m)] = [] := by
  simp [acksIn, h]

/-- Neither is a message with the ID of another key. -/
theorem acksIn_of_key {peer : Endpoint} {m : Message} (h : ⟨peer, m.id⟩ ≠ key) :
    acksIn key [(peer, m)] = [] := by
  obtain ⟨p, i⟩ := key
  simp only [ne_eq, MessageKey.mk.injEq, not_and] at h
  have hnot : ¬(peer = p ∧ m.type = .acknowledgement ∧ m.id = i) := fun hm => h hm.1 hm.2.2
  simp [acksIn, hnot]

/-! ## Which acknowledgements can follow each other -/

/-- These acknowledgements can go out while the record of a request goes from one state to
another; `handed` are the messages that are handed in to be sent. -/
inductive Answers (key : MessageKey) (handed : Message → Prop) :
    AckState → List Message → AckState → Prop
  | done (σ : AckState) : Answers key handed σ [] σ
  | first {l : List Message} {σ : AckState} (h : Answers key handed .acknowledged l σ) :
      Answers key handed .waiting (.emptyAck key.id :: l) σ
  | again {l : List Message} {σ : AckState} (h : Answers key handed .acknowledged l σ) :
      Answers key handed .acknowledged (.emptyAck key.id :: l) σ
  | respond {r : Message} {l : List Message} {σ : AckState} (hhanded : handed r)
      (hfull : ¬ r.isEmpty) (h : Answers key handed (.responded r) l σ) :
      Answers key handed .waiting (r :: l) σ
  | resend {r : Message} {l : List Message} {σ : AckState}
      (h : Answers key handed (.responded r) l σ) :
      Answers key handed (.responded r) (r :: l) σ

namespace Answers

variable {handed handed' : Message → Prop} {σ σ' σ'' : AckState} {l l' : List Message}
  {r : Message}

/-- More may be handed over than was. -/
theorem mono (h : Answers key handed σ l σ') (hle : ∀ r, handed r → handed' r) :
    Answers key handed' σ l σ' := by
  induction h with
  | done σ => exact .done σ
  | first _ ih => exact .first ih
  | again _ ih => exact .again ih
  | respond hhanded hfull _ ih => exact .respond (hle _ hhanded) hfull ih
  | resend _ ih => exact .resend ih

/-- Acknowledgements that can follow each other can be joined. -/
theorem trans (h : Answers key handed σ l σ') (h' : Answers key handed σ' l' σ'') :
    Answers key handed σ (l ++ l') σ'' := by
  induction h with
  | done σ => exact h'
  | first _ ih => exact .first (ih h')
  | again _ ih => exact .again (ih h')
  | respond hhanded hfull _ ih => exact .respond hhanded hfull (ih h')
  | resend _ ih => exact .resend (ih h')

/-- After an empty acknowledgement all further ones are empty. -/
theorem of_acknowledged (h : Answers key handed .acknowledged l σ) :
    σ = .acknowledged ∧ ∀ a ∈ l, a = .emptyAck key.id := by
  generalize hσ : AckState.acknowledged = σ₀ at h
  induction h with
  | done σ => exact ⟨rfl, by simp⟩
  | again _ ih =>
    obtain ⟨hend, hall⟩ := ih rfl
    exact ⟨hend, List.forall_mem_cons.mpr ⟨rfl, hall⟩⟩
  | _ => cases hσ

/-- After a response all further acknowledgements are this response. -/
theorem of_responded (h : Answers key handed (.responded r) l σ) :
    σ = .responded r ∧ ∀ a ∈ l, a = r := by
  generalize hσ : AckState.responded r = σ₀ at h
  induction h with
  | done σ => exact ⟨rfl, by simp⟩
  | resend _ ih =>
    cases hσ
    obtain ⟨hend, hall⟩ := ih rfl
    exact ⟨hend, List.forall_mem_cons.mpr ⟨rfl, hall⟩⟩
  | _ => cases hσ

/-- A record never goes back to waiting. -/
theorem eq_waiting (h : Answers key handed σ l σ') (hσ : σ' = .waiting) : σ = .waiting := by
  induction h with
  | done => exact hσ
  | first => rfl
  | again _ ih => cases ih hσ
  | respond => rfl
  | resend _ ih => cases ih hσ

/-- The first acknowledgement decides how a request is acknowledged. -/
theorem of_waiting (h : Answers key handed .waiting l σ) :
    (σ = .waiting ∧ l = []) ∨
    (σ = .acknowledged ∧ l ≠ [] ∧ ∀ a ∈ l, a = .emptyAck key.id) ∨
    ∃ r, σ = .responded r ∧ l ≠ [] ∧ handed r ∧ ¬ r.isEmpty ∧ ∀ a ∈ l, a = r := by
  cases h with
  | done => exact .inl ⟨rfl, rfl⟩
  | first h =>
    obtain ⟨hσ, hall⟩ := h.of_acknowledged
    exact .inr (.inl ⟨hσ, by simp, List.forall_mem_cons.mpr ⟨rfl, hall⟩⟩)
  | @respond r _ _ hhanded hfull h =>
    obtain ⟨hσ, hall⟩ := h.of_responded
    exact .inr (.inr ⟨r, hσ, by simp, hhanded, hfull, List.forall_mem_cons.mpr ⟨rfl, hall⟩⟩)

end Answers

/-! ## What one event does to a record -/

/-- After an event there is this record under the key, and all others are as before. -/
def Writes (s s' : Incoming) (key : MessageKey) (r : IncomingRecord) : Prop :=
  ∀ key', s'.records.get? key' = if key = key' then some r else s.records.get? key'

/-- To record a state is to write an entry. -/
theorem writes_record (key : MessageKey) (state : AckState) (expires : Instant) :
    Writes s (s.record key state expires) key ⟨state, expires⟩ :=
  fun _ => Table.get?_insert ..

/-- To write what is there already changes nothing. -/
theorem writes_same {r : IncomingRecord} (h : s.records.get? key = some r) : Writes s s key r := by
  intro key'
  split
  · next hkey => exact hkey ▸ h
  · rfl

/-- What was written is found. -/
theorem Writes.get?_self {s' : Incoming} {r : IncomingRecord} (h : Writes s s' key r) :
    s'.records.get? key = some r := by
  rw [h, if_pos rfl]

/-- Other entries are as before. -/
theorem Writes.get?_of_ne {s' : Incoming} {r : IncomingRecord} {key' : MessageKey}
    (h : Writes s s' key r) (hne : key ≠ key') : s'.records.get? key' = s.records.get? key' := by
  rw [h, if_neg hne]

/-- The request of a key: a confirmable message that asks for something. -/
def Asks (m : Message) : Prop := m.type = .confirmable ∧ m.isRequest

/-- What goes back to the peer, and what is left behind, when a message comes in. -/
inductive Reception (s : Incoming) (t : Instant) (key : MessageKey) (m : Message) :
    List Message → Incoming → Prop
  | passed (hm : ¬ Watched m) : Reception s t key m [] s
  | refused (hm : ¬ Watched m) : Reception s t key m [.resetOf key.id] s
  /-- A new message is remembered, and a response acknowledged. -/
  | opened {sent : List Message} {s' : Incoming} {r : IncomingRecord} (hm : Watched m)
      (hnew : ¬ s.Remembers t key) (hs' : Writes s s' key r)
      (hwaiting : r.state = .waiting ↔ Asks m) (hstate : ∀ response, r.state ≠ .responded response)
      (hexpires : Asks m → r.expires = t + s.exchangeLifetime)
      (hsent : sent = [] ∨ m.isResponse ∧ sent = [.emptyAck key.id]) : Reception s t key m sent s'
  /-- A duplicate of anything but a request is dropped, and a response acknowledged again. -/
  | known {sent : List Message} (hm : Watched m) (hold : s.Remembers t key)
      (hsent : sent = [] ∨ m.isResponse ∧ sent = [.emptyAck key.id]) : Reception s t key m sent s
  | resent {response : Message} {expires : Instant} (hm : Asks m)
      (hlive : s.live? t key = some ⟨.responded response, expires⟩) :
      Reception s t key m [response] s
  | acknowledged {state : AckState} {expires : Instant} {s' : Incoming} (hm : Asks m)
      (hlive : s.live? t key = some ⟨state, expires⟩)
      (hstate : state = .waiting ∨ state = .acknowledged)
      (hs' : Writes s s' key ⟨.acknowledged, expires⟩) :
      Reception s t key m [.emptyAck key.id] s'
  | unasked {expires : Instant} (hm : Asks m) (hlive : s.live? t key = some ⟨.unasked, expires⟩) :
      Reception s t key m [] s

/-- A confirmable request is watched. -/
theorem Asks.watched {m : Message} (h : Asks m) : Watched m := .inl ⟨h.1, .inl h.2⟩

/-- A message that asks is no response. -/
theorem Asks.not_isResponse {m : Message} (h : Asks m) : m.isResponse = false := by
  have hcode := h.2
  simp only [Message.isRequest, Code.isRequest, Code.method?] at hcode
  cases hmeaning : m.code.meaning with
  | request => simp [Message.isResponse, Code.isResponse, Code.status?, hmeaning]
  | _ => simp [hmeaning] at hcode

/-- What is remembered at once: the message is new, or nothing changes. -/
theorem reception_remember {m : Message} {sent : List Message} {state : AckState}
    {lifetime : Duration} (hm : Watched m) (hasks : ¬ Asks m) (hwaiting : state ≠ .waiting)
    (hstate : ∀ response, state ≠ .responded response)
    (hsent : sent = [] ∨ m.isResponse ∧ sent = [.emptyAck key.id]) :
    Reception s t key m sent (s.remember t key state lifetime).2 := by
  unfold remember
  split
  · next r h => exact .known hm (remembers_iff.mpr ⟨r, h⟩) hsent
  · next h =>
    exact .opened hm (live?_eq_none_iff.mp h) (writes_record _ _ _)
      ⟨fun h => absurd h hwaiting, fun h => absurd h hasks⟩ hstate (fun h => absurd h hasks) hsent

/-- A request that is confirmable is received anew or again. -/
theorem reception_receiveRequest {m : Message} (hm : Asks m) :
    Reception s t key m (s.receiveRequest t key m).2.1 (s.receiveRequest t key m).2.2 := by
  unfold receiveRequest
  split
  · next h =>
    exact .opened hm.watched (live?_eq_none_iff.mp h) (writes_record key .waiting _)
      (by simp [hm]) (by simp) (fun _ => rfl) (.inl rfl)
  · next r hlive =>
    obtain ⟨state, expires⟩ := r
    cases state with
    | waiting => exact .acknowledged hm hlive (.inl rfl) (writes_record _ _ _)
    | acknowledged =>
      exact .acknowledged hm hlive (.inr rfl) (writes_same (live?_eq_some_iff.mp hlive).1)
    | responded response => exact .resent hm hlive
    | unasked => exact .unasked hm hlive

/-- All layers below let a request through. -/
theorem receive_of_asks {peer : Endpoint} {m : Message} (h : Asks m) :
    s.receive t peer m = s.receiveRequest t ⟨peer, m.id⟩ m := by
  obtain ⟨htype, hcode⟩ := h
  simp only [Message.isRequest, Code.isRequest, Code.method?] at hcode
  cases hmeaning : m.code.meaning with
  | request => simp only [receive, htype, hmeaning]
  | _ => simp [hmeaning] at hcode

/-- Every message that comes in is received anew, received again, or changes no record. -/
theorem receive_cases (s : Incoming) (t : Instant) (peer : Endpoint) (m : Message) :
    Reception s t ⟨peer, m.id⟩ m (s.receive t peer m).2.1 (s.receive t peer m).2.2 := by
  cases htype : m.type with
  | acknowledgement => simpa [receive, htype] using .passed (by simp [Watched, htype])
  | reset => simpa [receive, htype] using .passed (by simp [Watched, htype])
  | nonConfirmable =>
    have hasks : ¬ Asks m := fun h => by simp [h.1] at htype
    simpa [receive, htype] using
      reception_remember (.inr htype) hasks (by simp) (by simp) (.inl rfl)
  | confirmable =>
    cases hmeaning : m.code.meaning with
    | empty =>
      have hm : ¬ Watched m := by
        simp [Watched, htype, Message.isRequest, Message.isResponse, Code.isRequest,
          Code.isResponse, Code.method?, Code.status?, hmeaning]
      simpa [receive, htype, hmeaning] using .refused hm
    | reserved =>
      have hm : ¬ Watched m := by
        simp [Watched, htype, Message.isRequest, Message.isResponse, Code.isRequest,
          Code.isResponse, Code.method?, Code.status?, hmeaning]
      simpa [receive, htype, hmeaning] using .refused hm
    | response =>
      have hresponse : m.isResponse := by
        simp [Message.isResponse, Code.isResponse, Code.status?, hmeaning]
      have hasks : ¬ Asks m := fun h => by
        simpa [Message.isRequest, Code.isRequest, Code.method?, hmeaning] using h.2
      simpa [receive, htype, hmeaning] using
        reception_remember (.inl ⟨htype, .inr hresponse⟩) hasks (by simp) (by simp)
          (.inr ⟨hresponse, rfl⟩)
    | request =>
      have hasks : Asks m := ⟨htype, by
        simp [Message.isRequest, Code.isRequest, Code.method?, hmeaning]⟩
      rw [receive_of_asks hasks]
      exact reception_receiveRequest hasks

/-- A response that is kept for duplicates is an acknowledgement of its own request. -/
def Sound (s : Incoming) : Prop :=
  ∀ key response expires, s.records.get? key = some ⟨.responded response, expires⟩ →
    response.type = .acknowledgement ∧ response.id = key.id

/-- Soundness speaks of the records only. -/
theorem Sound.congr {s' : Incoming} (hs : s.Sound) (h : s'.records = s.records) : s'.Sound := by
  rwa [Sound, h]

/-- To record anything but a response keeps the stored responses as they are. -/
theorem Sound.of_writes {s' : Incoming} {r : IncomingRecord} (hs : s.Sound)
    (hs' : Writes s s' key r)
    (h : ∀ response, r.state = .responded response →
      response.type = .acknowledgement ∧ response.id = key.id) : s'.Sound := by
  intro key' response expires hr
  rw [hs'] at hr
  split at hr
  · next hkey =>
    cases hr
    exact hkey ▸ h response rfl
  · exact hs key' response expires hr

/-- A record is opened by a message that is watched and not remembered. -/
theorem opens_receive_iff {peer : Endpoint} {m : Message} :
    s.Opens t key (.receive peer m) ↔ ⟨peer, m.id⟩ = key ∧ Watched m ∧ ¬ s.Remembers t key := by
  rw [Opens, forwards_receive_iff]
  refine and_congr_right fun hkey => and_congr_right fun hm => ?_
  obtain ⟨lifetime, hlifetime, -⟩ := handled_receive s t peer hm
  simp [hlifetime, hm, hkey]

/-! ### Messages that come in -/

section Receive

variable {peer : Endpoint} {m : Message} {handed : Message → Prop}

/-- A message changes the record of its own key only. -/
theorem get?_receive_of_ne (h : ⟨peer, m.id⟩ ≠ key) :
    (s.receive t peer m).2.2.records.get? key = s.records.get? key := by
  have hcases := receive_cases s t peer m
  generalize (s.receive t peer m).2.1 = sent at hcases
  generalize (s.receive t peer m).2.2 = s' at hcases
  cases hcases with
  | opened _ _ hs' => exact hs'.get?_of_ne h
  | acknowledged _ _ _ hs' => exact hs'.get?_of_ne h
  | _ => rfl

/-- Whatever answers a message carries its ID. -/
theorem acksIn_receive_of_ne (hs : s.Sound) (h : ⟨peer, m.id⟩ ≠ key) :
    acksIn key (s.output t (.receive peer m)) = [] := by
  have hid (a : Message) (ha : a.id = m.id) : acksIn key [(peer, a)] = [] :=
    acksIn_of_key (ha ▸ h)
  have hcases := receive_cases s t peer m
  rw [output]
  generalize (s.receive t peer m).2.1 = sent at hcases
  generalize (s.receive t peer m).2.2 = s' at hcases
  cases hcases with
  | passed => rfl
  | refused => exact hid _ rfl
  | opened _ _ _ _ _ _ hsent =>
    obtain rfl | ⟨-, rfl⟩ := hsent
    · rfl
    · exact hid _ rfl
  | known _ _ hsent =>
    obtain rfl | ⟨-, rfl⟩ := hsent
    · rfl
    · exact hid _ rfl
  | resent _ hlive => exact hid _ (hs _ _ _ (live?_eq_some_iff.mp hlive).1).2
  | acknowledged => exact hid _ rfl
  | unasked => rfl

/-- Records stay sound when a message comes in. -/
theorem sound_receive (hs : s.Sound) : (s.receive t peer m).2.2.Sound := by
  have hcases := receive_cases s t peer m
  generalize (s.receive t peer m).2.1 = sent at hcases
  generalize (s.receive t peer m).2.2 = s' at hcases
  cases hcases with
  | opened _ _ hs' _ hstate => exact hs.of_writes hs' fun response h => absurd h (hstate response)
  | acknowledged _ _ _ hs' => exact hs.of_writes hs' fun _ h => by cases h
  | _ => exact hs

/-- The record of a message that is let through; only a request waits for a response. -/
theorem get?_receive_of_opens (h : s.Opens t key (.receive peer m)) :
    ∃ r, (s.receive t peer m).2.2.records.get? key = some r ∧ (r.state = .waiting ↔ Asks m) ∧
      (Asks m → r.expires = t + s.exchangeLifetime) := by
  obtain ⟨rfl, hm, hnew⟩ := opens_receive_iff.mp h
  have hold {r : IncomingRecord} (hlive : s.live? t ⟨peer, m.id⟩ = some r) :
      s.Remembers t ⟨peer, m.id⟩ := remembers_iff.mpr ⟨r, hlive⟩
  have hcases := receive_cases s t peer m
  generalize (s.receive t peer m).2.1 = sent at hcases
  generalize (s.receive t peer m).2.2 = s' at hcases
  cases hcases with
  | opened _ _ hs' hwaiting _ hexpires => exact ⟨_, hs'.get?_self, hwaiting, hexpires⟩
  | passed hnot => exact absurd hm hnot
  | refused hnot => exact absurd hm hnot
  | known _ hold => exact absurd hold hnew
  | resent _ hlive => exact absurd (hold hlive) hnew
  | acknowledged _ hlive => exact absurd (hold hlive) hnew
  | unasked _ hlive => exact absurd (hold hlive) hnew

/-- Without a record, one is not made but by a message that opens it. -/
theorem get?_receive_eq_none (hr : s.records.get? ⟨peer, m.id⟩ = none)
    (hnot : ¬ s.Opens t ⟨peer, m.id⟩ (.receive peer m)) :
    (s.receive t peer m).2.2.records.get? ⟨peer, m.id⟩ = none := by
  have hlive (r : IncomingRecord) : s.live? t ⟨peer, m.id⟩ ≠ some r := fun h => by
    rw [(live?_eq_some_iff.mp h).1] at hr
    cases hr
  have hcases := receive_cases s t peer m
  generalize (s.receive t peer m).2.1 = sent at hcases
  generalize (s.receive t peer m).2.2 = s' at hcases
  cases hcases with
  | opened hm hnew => exact absurd (opens_receive_iff.mpr ⟨rfl, hm, hnew⟩) hnot
  | acknowledged _ h => exact absurd h (hlive _)
  | _ => exact hr

/-- A message that comes in again is acknowledged as its record says. -/
theorem answers_receive {r : IncomingRecord} (hs : s.Sound)
    (hr : s.records.get? ⟨peer, m.id⟩ = some r)
    (hnot : ¬ s.Opens t ⟨peer, m.id⟩ (.receive peer m)) :
    ∃ σ, Answers ⟨peer, m.id⟩ handed r.state (if Event.answersRequest (.receive peer m) then
        acksIn ⟨peer, m.id⟩ (s.output t (.receive peer m)) else []) σ ∧
      (s.receive t peer m).2.2.records.get? ⟨peer, m.id⟩ = some ⟨σ, r.expires⟩ := by
  have hrecord {r' : IncomingRecord} (hlive : s.live? t ⟨peer, m.id⟩ = some r') : r = r' :=
    Option.some.inj (hr.symm.trans (live?_eq_some_iff.mp hlive).1)
  have hasks (hm : Asks m) : Event.answersRequest (.receive peer m) := by
    simpa [Event.answersRequest] using hm.not_isResponse
  have hcases := receive_cases s t peer m
  rw [output]
  generalize (s.receive t peer m).2.1 = sent at hcases
  generalize (s.receive t peer m).2.2 = s' at hcases
  cases hcases with
  | passed => exact ⟨r.state, by simpa using .done _, hr⟩
  | refused =>
    refine ⟨r.state, ?_, hr⟩
    rw [List.map_singleton, acksIn_of_type (by simp [Message.resetOf, Message.bare]), ite_self]
    exact .done _
  | opened hm hnew => exact absurd (opens_receive_iff.mpr ⟨rfl, hm, hnew⟩) hnot
  | known _ _ hsent =>
    refine ⟨r.state, ?_, hr⟩
    -- the acknowledgement of a response is none of a request
    obtain rfl | ⟨hresponse, rfl⟩ := hsent
    · simpa using .done _
    · simpa [Event.answersRequest, hresponse] using .done _
  | resent hm hlive =>
    obtain rfl := hrecord hlive
    obtain ⟨htype, hid⟩ := hs _ _ _ hr
    refine ⟨_, ?_, hr⟩
    rw [if_pos (hasks hm), List.map_singleton, acksIn_singleton rfl htype hid]
    exact .resend (.done _)
  | acknowledged hm hlive hstate hs' =>
    obtain rfl := hrecord hlive
    refine ⟨_, ?_, hs'.get?_self⟩
    rw [if_pos (hasks hm), List.map_singleton, acksIn_singleton rfl rfl rfl]
    obtain rfl | rfl := hstate
    · exact .first (.done _)
    · exact .again (.done _)
  | unasked => exact ⟨r.state, by simpa using .done _, hr⟩

end Receive

/-! ### Messages that go out -/

section Send

variable {peer : Endpoint} {m : Message}

/-- A response on an acknowledgement goes out as it is while its request waits. -/
theorem send_eq (htype : m.type = .acknowledgement) (hfull : ¬ m.isEmpty) :
    (s.send peer m).1 =
      if (s.records.get? ⟨peer, m.id⟩).map (·.state) = some .waiting then m
      else { m with type := .confirmable } := by
  simp only [send, htype, hfull, Bool.not_false, and_self, if_true]
  split
  · next h => simp [h]
  · next h =>
    rw [if_neg]
    rintro hwaiting
    obtain ⟨⟨_, expires⟩, hr, rfl⟩ := Option.map_eq_some_iff.mp hwaiting
    exact h expires hr

/-- What a message that is handed in leaves behind: it is stored if it is a response for which
a request waits. -/
theorem send_cases (s : Incoming) (peer : Endpoint) (m : Message) :
    ((s.send peer m).2 = s ∧ ((s.send peer m).1 = m ∧ (m.type = .acknowledgement → m.isEmpty) ∨
      (s.send peer m).1.type = .confirmable)) ∨
    ∃ expires, s.records.get? ⟨peer, m.id⟩ = some ⟨.waiting, expires⟩ ∧
      m.type = .acknowledgement ∧ ¬ m.isEmpty ∧ (s.send peer m).1 = m ∧
      Writes s (s.send peer m).2 ⟨peer, m.id⟩ ⟨.responded m, expires⟩ := by
  unfold send
  split
  · next h =>
    obtain ⟨htype, hfull⟩ := h
    dsimp only
    split
    · next expires hr =>
      exact .inr ⟨expires, hr, htype, by simpa using hfull, rfl, writes_record _ _ _⟩
    · exact .inl ⟨rfl, .inr rfl⟩
  · next h =>
    refine .inl ⟨rfl, .inl ⟨rfl, fun htype => ?_⟩⟩
    by_contra hfull
    exact h ⟨htype, by simpa using hfull⟩

/-- Records stay sound when a message goes out. -/
theorem sound_send (hs : s.Sound) : (s.send peer m).2.Sound := by
  obtain ⟨hsame, -⟩ | ⟨expires, -, htype, -, -, hs'⟩ := send_cases s peer m
  · rwa [hsame]
  · refine hs.of_writes hs' fun response h => ?_
    cases h
    exact ⟨htype, rfl⟩

/-- A message that goes out acknowledges, if it does, what waits for it. -/
theorem answers_send {r : IncomingRecord} (hr : s.records.get? key = some r) :
    ∃ σ, Answers key (fun m' => Event.send peer m = .send key.peer m') r.state
        (if Event.answersRequest (.send peer m) then acksIn key (s.output t (.send peer m))
          else []) σ ∧
      (s.send peer m).2.records.get? key = some ⟨σ, r.expires⟩ := by
  rw [output]
  obtain ⟨hsame, hout⟩ | ⟨expires, hwaiting, htype, hfull, hout, hs'⟩ := send_cases s peer m
  · refine ⟨r.state, ?_, by rwa [hsame]⟩
    obtain ⟨hm, hempty⟩ | htype := hout
    · by_cases hack : m.type = .acknowledgement
      · simpa [Event.answersRequest, hempty hack] using .done _
      · rw [hm, acksIn_of_type hack, ite_self]
        exact .done _
    · rw [acksIn_of_type (by simp [htype]), ite_self]
      exact .done _
  · by_cases hkey : ⟨peer, m.id⟩ = key
    · subst hkey
      obtain rfl : r = ⟨.waiting, expires⟩ := Option.some.inj (hr.symm.trans hwaiting)
      refine ⟨_, ?_, hs'.get?_self⟩
      have hanswers : Event.answersRequest (.send peer m) := by
        simpa [Event.answersRequest] using hfull
      rw [hout, acksIn_singleton rfl htype rfl, if_pos hanswers]
      exact .respond rfl hfull (.done _)
    · refine ⟨r.state, ?_, (hs'.get?_of_ne hkey).trans hr⟩
      rw [hout, acksIn_of_key hkey, ite_self]
      exact .done _

/-- No record is made by a message that goes out. -/
theorem get?_send_eq_none (hr : s.records.get? key = none) :
    (s.send peer m).2.records.get? key = none := by
  obtain ⟨hsame, -⟩ | ⟨expires, hwaiting, -, -, -, hs'⟩ := send_cases s peer m
  · rwa [hsame]
  · refine (hs'.get?_of_ne fun hkey => ?_).trans hr
    rw [hkey, hr] at hwaiting
    cases hwaiting

end Send

/-! ### The timer -/

section Sweep

variable {due : List MessageKey} {handed : Message → Prop}

/-- Records stay sound when acknowledgements are sent on time. -/
theorem sound_fireAcks (hs : s.Sound) : (fireAcks due s).2.Sound := by
  induction due generalizing s with
  | nil => exact hs
  | cons k rest ih =>
    rw [fireAcks]
    split
    · exact ih (hs.of_writes (writes_record _ _ _) fun _ h => by cases h)
    · exact ih hs

/-- The timer acknowledges what still waits, with an empty message. -/
theorem answers_fireAcks {r : IncomingRecord} (hr : s.records.get? key = some r) :
    ∃ σ, Answers key handed r.state (acksIn key (fireAcks due s).1) σ ∧
      (fireAcks due s).2.records.get? key = some ⟨σ, r.expires⟩ := by
  induction due generalizing s r with
  | nil => exact ⟨r.state, .done _, hr⟩
  | cons k rest ih =>
    rw [fireAcks]
    split
    · next expires hk =>
      have hs' := writes_record (s := s) k .acknowledged expires
      dsimp only
      rw [acksIn_cons]
      by_cases hkey : k = key
      · subst hkey
        obtain rfl : r = ⟨.waiting, expires⟩ := Option.some.inj (hr.symm.trans hk)
        obtain ⟨σ, hanswers, hr'⟩ := ih hs'.get?_self
        refine ⟨σ, ?_, hr'⟩
        rw [acksIn_singleton rfl rfl rfl]
        exact .first hanswers
      · obtain ⟨σ, hanswers, hr'⟩ := ih ((hs'.get?_of_ne hkey).trans hr)
        refine ⟨σ, ?_, hr'⟩
        rw [acksIn_of_key hkey]
        exact hanswers
    · exact ih hr

/-- The timer makes no record. -/
theorem get?_fireAcks_eq_none (hr : s.records.get? key = none) :
    (fireAcks due s).2.records.get? key = none := by
  induction due generalizing s with
  | nil => exact hr
  | cons k rest ih =>
    rw [fireAcks]
    split
    · next expires hk =>
      refine ih (((writes_record k _ _).get?_of_ne fun hkey => ?_).trans hr)
      rw [hkey, hr] at hk
      cases hk
    · exact ih hr

/-- A sweep drops a record only when it has expired. -/
theorem get?_purge {r : IncomingRecord} (hr : s.records.get? key = some r) :
    (s.purge t).records.get? key = some r ∨
      (s.purge t).records.get? key = none ∧ r.expires ≤ t := by
  unfold purge
  split
  · rw [Table.get?_filter, hr]
    by_cases hlt : t < r.expires
    · exact .inl (by simp [hlt])
    · exact .inr ⟨by simpa using hlt, Nat.le_of_not_lt hlt⟩
  · exact .inl hr

/-- What is purged leaves no record behind. -/
theorem get?_purge_eq_none (hr : s.records.get? key = none) :
    (s.purge t).records.get? key = none := by
  unfold purge
  split
  · rw [Table.get?_filter, hr, Option.filter_none]
  · exact hr

/-- A sweep takes what is due off the schedule, sends the acknowledgements and tidies up. -/
theorem exists_sweep (s : Incoming) (t : Instant) :
    ∃ due s', s'.records = s.records ∧ (s.sweep t).1 = (fireAcks due s').1 ∧
      (s.sweep t).2.records = ((fireAcks due s').2.purge t).records :=
  ⟨(s.schedule.takeWhile fun e => e.1 ≤ t).map (·.2),
    { s with schedule := s.schedule.drop (s.schedule.takeWhile fun e => e.1 ≤ t).length },
    rfl, rfl, rfl⟩

/-- What is left after a purge was there before. -/
theorem get?_of_get?_purge {r : IncomingRecord} (hr : (s.purge t).records.get? key = some r) :
    s.records.get? key = some r := by
  unfold purge at hr
  split at hr
  · rw [Table.get?_filter] at hr
    exact (Option.filter_eq_some_iff.mp hr).1
  · exact hr

end Sweep

/-! ## What an event does -/

/-- At the start nothing is recorded, so nothing is unsound. -/
theorem sound_start (c : Config) : (start c).Sound := by
  intro key response expires h
  cases h

/-- **Records stay sound** in every event. -/
theorem sound_step (hs : s.Sound) : (s.step t event).Sound := by
  cases event with
  | receive peer m => exact sound_receive hs
  | send peer m => exact sound_send hs
  | sweep =>
    obtain ⟨due, s', hsame, -, hafter⟩ := exists_sweep s t
    intro key response expires hr
    rw [step, hafter] at hr
    exact sound_fireAcks (hs.congr hsame) key response expires (get?_of_get?_purge hr)

/-- **What an event does to the record of a request**, unless it is a new message: the record
goes on, or it has expired and is dropped. -/
theorem answers_step {r : IncomingRecord} (hs : s.Sound) (hr : s.records.get? key = some r)
    (hnot : ¬ s.Opens t key event) :
    ∃ σ, Answers key (fun m => event = .send key.peer m) r.state
        (if event.answersRequest then acksIn key (s.output t event) else []) σ ∧
      ((s.step t event).records.get? key = some ⟨σ, r.expires⟩ ∨
        (s.step t event).records.get? key = none ∧ r.expires ≤ t) := by
  cases event with
  | receive peer m =>
    by_cases hkey : ⟨peer, m.id⟩ = key
    · subst hkey
      obtain ⟨σ, hanswers, hr'⟩ := answers_receive hs hr hnot
      exact ⟨σ, hanswers, .inl hr'⟩
    · refine ⟨r.state, ?_, .inl ((get?_receive_of_ne hkey).trans hr)⟩
      rw [acksIn_receive_of_ne hs hkey, ite_self]
      exact .done _
  | send peer m =>
    obtain ⟨σ, hanswers, hr'⟩ := answers_send hr
    exact ⟨σ, hanswers, .inl hr'⟩
  | sweep =>
    obtain ⟨due, s', hsame, hsent, hafter⟩ := exists_sweep s t
    obtain ⟨σ, hanswers, hr'⟩ := answers_fireAcks (hsame ▸ hr)
    refine ⟨σ, ?_, ?_⟩
    · simpa only [Event.answersRequest, if_true, output, hsent] using hanswers
    · rw [step, hafter]
      exact get?_purge hr'

/-- Without a record there is none after an event, unless it is a new message. -/
theorem get?_step_eq_none (hr : s.records.get? key = none) (hnot : ¬ s.Opens t key event) :
    (s.step t event).records.get? key = none := by
  cases event with
  | receive peer m =>
    by_cases hkey : ⟨peer, m.id⟩ = key
    · subst hkey
      exact get?_receive_eq_none hr hnot
    · exact (get?_receive_of_ne hkey).trans hr
  | send peer m => exact get?_send_eq_none hr
  | sweep =>
    obtain ⟨due, s', hsame, -, hafter⟩ := exists_sweep s t
    rw [step, hafter]
    exact get?_purge_eq_none (get?_fireAcks_eq_none (hsame ▸ hr))

end Coap.Incoming
