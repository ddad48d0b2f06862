/-
# Responses on acknowledgements

A response travels on an acknowledgement that still waits under the ID of its request.  That may
be a newer request: when the ID is forgotten the peer may use it again, and nothing but peer and
ID is compared.  Along a history, a response on an acknowledgement has the token of the latest
request that was let in under its ID, unless it comes when another request has been let in since,
a lifetime after its own (`piggybacked_latest`); and then it may have another one
(`piggybacked_overtaken`).
-/
import Coap.Proofs.Engine.Asked
import Coap.Proofs.Engine.Latest

namespace Coap.Engine

variable {e e' : Engine} {peer : Endpoint} {m : Message} {event : Event} {turn : Turn}
  {turns : List Turn} {lifetime : Duration} {key : MessageKey} {token : Token}
  {right right' : MessageKey → Token → Prop} {before : List (Endpoint × Message)}

/-! ## The way out -/

/-- What a node keeps for duplicates has a right token, and what it repeats is confirmable. -/
structure Fits (right : MessageKey → Token → Prop) (e : Engine) : Prop where
  sound : e.incoming.Sound
  repeats : ∀ k m, e.outgoing.openMessage? k = some m → m.type = .confirmable
  kept : ∀ k m, e.incoming.Stores k m → right k m.token

/-- If a message for a peer is an acknowledgement that is not empty, its token is right. -/
def Suits (right : MessageKey → Token → Prop) (peer : Endpoint) (m : Message) : Prop :=
  m.type = .acknowledgement → ¬ m.isEmpty → right ⟨peer, m.id⟩ m.token

/-- A node fits, and so does all that went out since the outbox held the given messages. -/
structure FitsSince (right : MessageKey → Token → Prop) (before : List (Endpoint × Message))
    (e : Engine) : Prop extends Fits right e where
  since : ∃ later, e.sent = before ++ later ∧ ∀ x ∈ later, Suits right x.1 x.2

theorem sent_transmitAll_eq (messages : List (Endpoint × Message)) (e : Engine) :
    (e.transmitAll messages).sent = e.sent ++ if e.outboxOpen then messages else [] := by
  show List.map _ (outbox _) = _
  rw [outbox_transmitAll, List.map_append, List.map_map]
  exact congrArg (e.sent ++ ·) (List.map_id _)

theorem suits_of_signal (h : m.IsSignal) : Suits right peer m := by
  obtain ⟨id, rfl | rfl⟩ := h
  · exact fun _ hfull => absurd rfl hfull
  · exact fun htype => by cases htype

theorem suits_of_confirmable (h : m.type = .confirmable) : Suits right peer m := by
  intro htype
  rw [h] at htype
  cases htype

theorem Suits.header {m' : Message} (hm : Suits right peer m) (h : m.SameHeader m') :
    Suits right peer m' := by
  obtain ⟨_, _, rfl⟩ := h
  exact hm

namespace FitsSince

/-- The layers of exchanges take notice of something, and messages go out. -/
theorem exchanging (h : FitsSince right before e) (outgoing : Outgoing) (incoming : Incoming)
    (messages : List (Endpoint × Message)) (hsound : incoming.Sound)
    (hrepeats : ∀ k m, outgoing.openMessage? k = some m →
      e.outgoing.openMessage? k = some m ∨ m.type = .confirmable)
    (hkept : ∀ k m, incoming.Stores k m → right k m.token)
    (hmessages : ∀ x ∈ messages, Suits right x.1 x.2) :
    FitsSince right before ({ e with outgoing, incoming }.transmitAll messages) := by
  have hsent := sent_transmitAll_eq messages { e with outgoing, incoming }
  obtain ⟨later, hlater, hsuits⟩ := h.since
  obtain ⟨log, hlog⟩ := transmitAll_frame messages { e with outgoing, incoming }
  rw [hlog] at hsent ⊢
  refine ⟨⟨hsound, fun k m hm => (hrepeats k m hm).elim (h.repeats k m) id, hkept⟩, ?_⟩
  refine ⟨_, hsent.trans ((congrArg (· ++ _) hlater).trans (List.append_assoc ..)), ?_⟩
  intro x hx
  rcases List.mem_append.1 hx with hx | hx
  · exact hsuits x hx
  · split at hx
    · exact hmessages x hx
    · cases hx

/-- Messages go out. -/
theorem transmitAll (h : FitsSince right before e) (messages : List (Endpoint × Message))
    (hmessages : ∀ x ∈ messages, Suits right x.1 x.2) :
    FitsSince right before (e.transmitAll messages) :=
  h.exchanging _ _ messages h.sound (fun _ _ => .inl) h.kept hmessages

theorem silent (h : FitsSince right before e) (hsilent : Silent e e') :
    FitsSince right before e' := by
  refine ⟨⟨?_, fun k m hm => h.repeats k m (hsilent.repeats k m hm), ?_⟩, ?_⟩
  · rw [hsilent.incoming]
    exact h.sound
  · rw [hsilent.incoming]
    exact h.kept
  · rw [hsilent.sent]
    exact h.since

/-- What leaves as an acknowledgement is what was to be sent. -/
theorem sendReliably (h : FitsSince right before e) (hm : Suits right peer m) :
    FitsSince right before (e.sendReliably peer m).2 := by
  have hacknowledged : Suits right peer (e.incoming.send peer m).1 := by
    rcases e.incoming.send_cases peer m with ⟨-, ⟨hsame, -⟩ | htype⟩ | ⟨_, -, -, -, hsame, -⟩
    · rwa [hsame]
    · exact suits_of_confirmable htype
    · rwa [hsame]
  obtain ⟨messages, hsent, hmessages⟩ := exists_sendNumbered
    { e with incoming := (e.incoming.send peer m).2 } peer (e.incoming.send peer m).1
  have hreliably : (e.sendReliably peer m).2 = _ := hsent
  rw [hreliably]
  refine h.exchanging _ _ messages (Incoming.sound_send h.sound) (fun k m' hm' => ?_)
    (fun k m' hm' => ?_) fun x hx => ?_
  · refine (Outgoing.openMessage?_send hm').imp_right ?_
    rintro ⟨htype, id, -, rfl, -⟩
    exact htype
  · rcases Incoming.stores_send hm' with hold | ⟨rfl, rfl, htype, hfull⟩
    · exact h.kept k m' hold
    · exact hm htype hfull
  · obtain ⟨hpeer, hresult⟩ := hmessages x.1 x.2 hx
    intro htype
    -- an acknowledgement gets no ID of its own
    have htyped : (e.incoming.send peer m).1.type = .acknowledgement := by
      rw [← htype, Outgoing.eq_of_send hresult]
    have hplain : (e.outgoing.send e.now peer (e.incoming.send peer m).1).1 =
        .ok (e.incoming.send peer m).1 := by
      simp [Outgoing.send, htyped]
    have hsame : x.2 = (e.incoming.send peer m).1 := Except.ok.inj (hresult.symm.trans hplain)
    rw [hsame, hpeer]
    exact hacknowledged htyped

theorem frame : SendingFrame (fun e e' => FitsSince right before e → FitsSince right before e')
    (Suits right) where
  header hheader hm := hm.header hheader
  trans h h' := h' ∘ h
  silent hsilent h := h.silent hsilent
  rejected e peer id h := h.transmitAll [(peer, .resetOf id)] fun x hx => by
    rw [List.mem_singleton.1 hx]
    exact suits_of_signal ⟨id, .inr rfl⟩
  reliably e peer m hm h := h.sendReliably hm
  repeated e h := by
    refine h.exchanging _ _ _ h.sound (fun k m hm => .inl (Outgoing.openMessage?_fire hm)) h.kept ?_
    intro x hx
    obtain ⟨id, hopened⟩ := Outgoing.open_of_fire hx
    exact suits_of_confirmable (h.repeats _ _ hopened)
  swept e h := by
    unfold Engine.sweepDue
    split
    · have hsound : (e.incoming.step e.now .sweep).Sound := Incoming.sound_step h.sound
      exact h.exchanging _ (e.incoming.sweep e.now).2 _ hsound (fun _ _ => .inl)
        (fun k m hm => h.kept k m (Incoming.stores_sweep hm))
        fun x hx => suits_of_signal (Incoming.signal_of_sweep x hx)
    · exact h
  clock e now _ h := ⟨⟨h.sound, h.repeats, h.kept⟩, h.since⟩
  closed e h := ⟨⟨h.sound, h.repeats, h.kept⟩, h.since⟩

theorem heard (h : FitsSince right before e) (peer : Endpoint) (m : Message) :
    FitsSince right before (e.heard peer m) := by
  unfold Engine.heard
  simp only
  split
  · refine h.exchanging _ _ _ (Incoming.sound_receive h.sound)
      (fun k m' hm' => .inl (Outgoing.openMessage?_receive hm'))
      (fun k m' hm' => h.kept k m' (Incoming.stores_receive hm')) fun x hx => ?_
    obtain ⟨answer, hanswer, rfl⟩ := List.mem_map.1 hx
    rcases Incoming.sent_receive hanswer with hsignal | hstored
    · exact suits_of_signal hsignal
    · -- a duplicate is answered by what was kept for it
      obtain ⟨expires, hget⟩ := hstored
      have hid : answer.id = m.id := (h.sound _ _ expires hget).2
      intro _ _
      rw [hid]
      exact h.kept _ answer ⟨expires, hget⟩
  · exact h.silent (.closed e peer m)

end FitsSince

namespace Fits

theorem sinceSent (h : Fits right e) : FitsSince right e.sent e :=
  ⟨h, [], (List.append_nil _).symm, fun _ hx => by cases hx⟩

/-- Other tokens are right if those that matter still are. -/
theorem mono (h : Fits right e) (hright : ∀ k token, right k token → right' k token) :
    Fits right' e :=
  ⟨h.sound, h.repeats, fun k m hm => hright k _ (h.kept k m hm)⟩

/-- When a request is let in, what was kept under its ID is forgotten. -/
theorem heard_of_asked (h : Fits right e) {x : Asking} (hx : x ∈ e.askings event)
    (hright : ∀ k token, x.key ≠ k → right k token → right' k token) :
    FitsSince right' e.sent (e.heard x.peer x.request) := by
  obtain ⟨-, hasks, -, -⟩ := mem_askings.1 hx
  have hopens := opens_of_asked hx
  have hwaits := (Incoming.waits_of_opens hopens).2 hasks
  rw [heard_of_opens hasks hopens]
  refine ⟨⟨Incoming.sound_receive h.sound, fun k m hm =>
    h.repeats k m (Outgoing.openMessage?_receive hm), fun k m hm => ?_⟩, [],
    (List.append_nil _).symm, fun _ hx => by cases hx⟩
  refine hright k _ ?_ (h.kept k m (Incoming.stores_receive hm))
  rintro rfl
  obtain ⟨expires, hget⟩ := hm
  obtain ⟨expires', hwaiting⟩ := hwaits
  rw [hwaiting] at hget
  cases hget

/-- **What goes out at an event suits**, if the answers, the replies of the layers and what the
application has sent suit, and nothing that was kept under another ID gets wrong. -/
theorem step (h : Fits right e) (htimely : event.Timely e)
    (hdecoded : ∀ peer fault, event ≠ .handle peer (.error fault))
    (hright : ∀ k token, (∀ x ∈ e.askings event, x.key ≠ k) → right k token → right' k token)
    (hsends : event.SendsOnly (Suits right') e)
    (hanswers : ∀ a ∈ e.answerings event, Suits right' a.peer (addressTo a.request a.response))
    (hsubmitted : ∀ peer m r, event = .submit peer m r →
      ∀ sent, (e.withToken peer m).1 = .ok sent → Suits right' peer sent) :
    FitsSince right' e.sent (e.step event) := by
  have hdelayed (e' : Engine) (delayed : List Delayed) (hsince : FitsSince right' e.sent e') :
      FitsSince right' e.sent { e' with delayed } :=
    ⟨⟨hsince.sound, hsince.repeats, hsince.kept⟩, hsince.since⟩
  have hacross {e₁ : Engine} (hpasses : Passes (fun e₁ e₂ => FitsSince right' e.sent e₁ →
      FitsSince right' e.sent e₂) e₁ (e.answerings event) (e.step event)) :
      FitsSince right' e.sent e₁ → FitsSince right' e.sent (e.step event) :=
    (hpasses.across (fun a ha => FitsSince.frame.sendThrough a.node a.peer (hanswers a ha) _)
      fun hfirst hlater => hlater ∘ hfirst).1
  cases hasked : e.askings event with
  | cons x rest =>
    have hx : x ∈ e.askings event := hasked ▸ List.mem_cons_self
    have honly (y : Asking) (hy : y ∈ e.askings event) : y = x := by
      rw [askings_eq hx] at hy
      exact List.mem_singleton.1 hy
    refine hacross (FitsSince.frame.passes_brought hdelayed (mem_askings.1 hx).1 hsends)
      (h.heard_of_asked hx fun k token hk => hright k token fun y hy => honly y hy ▸ hk)
  | nil =>
    have hsince : FitsSince right' e.sent e := (h.mono fun k token => hright k token fun x hx => by
      rw [hasked] at hx
      cases hx).sinceSent
    exact hacross (FitsSince.frame.passes_step hdelayed htimely hsends
      (fun peer m _ hsince => hsince.heard peer m)
      (fun peer fault hevent => absurd hevent (hdecoded peer fault))
      fun peer m r hevent => FitsSince.frame.submit e peer m r (hsubmitted peer m r hevent)) hsince

end Fits

/-! ## Why a token is right -/

/-- A message for a peer is an acknowledgement under a key, with a token. -/
def Acknowledges (key : MessageKey) (token : Token) (peer : Endpoint) (m : Message) : Prop :=
  m.type = .acknowledgement ∧ ⟨peer, m.id⟩ = key ∧ m.token = token

/-- The application has an acknowledgement sent itself: it submits one, or its observers are
notified by one. -/
def Event.Chooses (e : Engine) (key : MessageKey) (token : Token) : Event → Prop
  | .submit peer m _ =>
    ∃ sent, (e.withToken peer m).1 = .ok sent ∧ Acknowledges key token peer sent
  | .announce id change =>
    ∃ n ∈ (e.subscriptions.announce id change).1, Acknowledges key token n.peer n.message
  | _ => False

/-- The latest confirmable request that was let in under a key has a token. -/
def AskedLatest (e : Engine) (turns : List Turn) (key : MessageKey) (token : Token) : Prop :=
  ∃ x, latestAsked? key (e.gather askings turns) = some x ∧ x.request.token = token

/-- Something was so at a turn of a history, after the turns before, and no confirmable request
has been let in under a key since. -/
def Lately (key : MessageKey) (e : Engine) (turns : List Turn)
    (wasSo : List Turn → Turn → Prop) : Prop :=
  ∃ before turn after, turns = before ++ turn :: after ∧ wasSo before turn ∧
    ∀ x ∈ ((e.play before).after turn).gather askings after, x.key ≠ key

/-- A response under a key left when its request was not the latest any more: one with another
token had been let in, a lifetime later. -/
def Overtaken (lifetime : Duration) (e : Engine) (turns : List Turn) (key : MessageKey)
    (token : Token) : Prop :=
  Lately key e turns fun before turn =>
    (∃ a ∈ ((e.play before).under turn.service).answerings turn.event,
      a.request.type = .confirmable ∧ ⟨a.peer, a.request.id⟩ = key ∧ a.request.token = token) ∧
    ∃ x y, x ∈ e.gather askings (before ++ [turn]) ∧ x.key = key ∧ x.request.token = token ∧
      latestAsked? key (e.gather askings (before ++ [turn])) = some y ∧
      y.request.token ≠ token ∧ x.time + lifetime ≤ y.time

/-- The application has chosen an acknowledgement under a key, with a token. -/
def Chosen (e : Engine) (turns : List Turn) (key : MessageKey) (token : Token) : Prop :=
  Lately key e turns fun before turn =>
    turn.event.Chooses ((e.play before).under turn.service) key token

/-- What there is to say for a token on an acknowledgement. -/
def Accounted (lifetime : Duration) (e : Engine) (turns : List Turn) (key : MessageKey)
    (token : Token) : Prop :=
  e.AskedLatest turns key token ∨ Overtaken lifetime e turns key token ∨ e.Chosen turns key token

theorem gather_concat {α : Type} (f : Engine → Event → List α) (e : Engine) (turns : List Turn)
    (turn : Turn) : e.gather f (turns ++ [turn]) =
      e.gather f turns ++ f ((e.play turns).under turn.service) turn.event := by
  rw [gather_append, gather, gather, List.append_nil]

theorem Lately.last {wasSo : List Turn → Turn → Prop} (h : wasSo turns turn) :
    Lately key e (turns ++ [turn]) wasSo :=
  ⟨turns, turn, [], rfl, h, fun _ hx => by cases hx⟩

theorem Lately.concat {wasSo : List Turn → Turn → Prop} (h : Lately key e turns wasSo)
    (hnew : ∀ x ∈ ((e.play turns).under turn.service).askings turn.event, x.key ≠ key) :
    Lately key e (turns ++ [turn]) wasSo := by
  obtain ⟨before, lately, after, rfl, hso, hnone⟩ := h
  refine ⟨before, lately, after ++ [turn], by simp, hso, fun x hx => ?_⟩
  rw [gather_concat] at hx
  rw [play_append] at hnew
  exact (List.mem_append.1 hx).elim (hnone x) (hnew x)

/-- A token stays accounted for until another request is let in under the key. -/
theorem Accounted.concat (h : Accounted lifetime e turns key token)
    (hnew : ∀ x ∈ ((e.play turns).under turn.service).askings turn.event, x.key ≠ key) :
    Accounted lifetime e (turns ++ [turn]) key token := by
  rcases h with ⟨x, hlatest, htoken⟩ | hovertaken | hchosen
  · refine .inl ⟨x, ?_, htoken⟩
    rw [gather_concat, latestAsked?_append_of_ne hnew]
    exact hlatest
  · exact .inr (.inl (Lately.concat hovertaken hnew))
  · exact .inr (.inr (Lately.concat hchosen hnew))

/-- What is let in last is the latest. -/
theorem askedLatest_of_asked {x : Asking}
    (hx : x ∈ ((e.play turns).under turn.service).askings turn.event) :
    e.AskedLatest (turns ++ [turn]) x.key x.request.token := by
  refine ⟨x, ?_, rfl⟩
  rw [gather_concat, askings_eq hx]
  exact latestAsked?_concat _ x

/-- A response has the token of the latest request under its key, or it is overtaken. -/
theorem accounted_of_answered (hnobody : e.delayed = [])
    (hlifetime : e.incoming.exchangeLifetime = lifetime) (htimely : e.Timely (turns ++ [turn]))
    {a : Answering} (ha : a ∈ ((e.play turns).under turn.service).answerings turn.event)
    (htype : a.request.type = .confirmable) :
    Accounted lifetime e (turns ++ [turn]) ⟨a.peer, a.request.id⟩ a.request.token := by
  obtain ⟨x, hx, hkey, htoken⟩ := asked_of_answered hnobody htimely (gather_of_mem ha) htype
  obtain ⟨y, hlatest, hy⟩ := latest_or_apart (apart_play htimely hlifetime) hx
  rw [hkey] at hlatest
  by_cases hsame : y.request.token = a.request.token
  · exact .inl ⟨y, hlatest, hsame⟩
  · have hapart : x.time + lifetime ≤ y.time := by
      rcases hy with rfl | hapart
      · exact absurd htoken hsame
      · exact hapart
    exact .inr (.inl (Lately.last ⟨⟨a, ha, htype, rfl, rfl⟩, x, y, hx, hkey, htoken, hlatest, hsame,
      hapart⟩))

/-! ## Histories -/

/-- An answer that leaves on an acknowledgement has the ID and the token of its request. -/
theorem suits_addressTo {request response : Message}
    (h : request.type = .confirmable → right ⟨peer, request.id⟩ request.token) :
    Suits right peer (addressTo request response) := by
  intro htype hfull
  have hcode : (addressTo request response).code = response.code := by
    unfold addressTo Message.setToken
    simp only
    split <;> split <;> rfl
  rw [Message.isEmpty, hcode] at hfull
  obtain ⟨type, id, haddressed, hconfirmable, hnot⟩ := addressTo_eq request hfull
  rw [haddressed] at htype ⊢
  by_cases hasked : request.type = .confirmable
  · obtain ⟨-, rfl⟩ := hconfirmable hasked
    exact h hasked
  · have hnone : type = .nonConfirmable := hnot hasked
    rw [hnone] at htype
    cases htype

/-- What a layer answers on an acknowledgement has the token of the request that was let in. -/
theorem suits_replied (hadmits : e.Admits peer m) (hbrings : event.Brings peer m)
    (hasked : ∀ x ∈ e.askings event, right x.key x.request.token) {answer : Message}
    (hanswer : (e.transfers.receive e.now peer m).1 = .reply answer) :
    Suits right peer answer := by
  have hresponds := e.transfers.responds_receive e.now peer m
  rw [hanswer] at hresponds
  obtain ⟨status, hheader⟩ := hresponds
  have hrequest : m.isRequest = true := by
    refine Classical.byContradiction fun hnot => ?_
    simp [Transfers.receive, hnot] at hanswer
  refine Suits.header ?_ hheader
  unfold Message.replyTo
  split
  · next htype =>
    intro _ _
    have hforwards : e.incoming.forwards e.now (.receive peer m) = true := by
      simpa [Incoming.forwards] using hadmits.2
    exact hasked ⟨peer, m, e.now⟩
      (mem_askings.2 ⟨hbrings, ⟨htype, hrequest⟩, hforwards, rfl⟩)
  · exact fun htype => by cases htype

/-- **At every turn of a history the tokens of acknowledgements are accounted for**, if they were
before, and the datagram could be decoded. -/
theorem fits_after (hnobody : e.delayed = [])
    (hlifetime : e.incoming.exchangeLifetime = lifetime) (htimely : e.Timely (turns ++ [turn]))
    (hdecoded : ∀ peer fault, turn.event ≠ .handle peer (.error fault))
    (hfits : Fits (Accounted lifetime e turns) (e.play turns)) :
    FitsSince (Accounted lifetime e (turns ++ [turn])) (e.play turns).sent
      ((e.play turns).after turn) := by
  have hunder : Fits (Accounted lifetime e turns) ((e.play turns).under turn.service) :=
    ⟨hfits.sound, hfits.repeats, hfits.kept⟩
  have hchosen {key : MessageKey} {token : Token}
      (h : turn.event.Chooses ((e.play turns).under turn.service) key token) :
      Accounted lifetime e (turns ++ [turn]) key token :=
    .inr (.inr (Lately.last h))
  refine hunder.step htimely.append.2.1 hdecoded (fun k token hnew h => h.concat hnew)
    ⟨?_, ?_⟩ ?_ ?_
  · intro peer m answer hbrings hadmits hanswer
    exact suits_replied hadmits hbrings (fun x hx => .inl (askedLatest_of_asked hx)) hanswer
  · intro id change hevent n hn htype _
    refine hchosen ?_
    rw [hevent]
    exact ⟨n, hn, htype, rfl, rfl⟩
  · intro a ha
    exact suits_addressTo (accounted_of_answered hnobody hlifetime htimely ha)
  · intro peer m r hevent sent hsent htype _
    refine hchosen ?_
    rw [hevent]
    exact ⟨sent, hsent, htype, rfl, rfl⟩

/-- On an acknowledgement only a request with an unacceptable option is rejected. -/
theorem badOption_of_reject {fault : Datagram.DecodeFault} {x : Endpoint × Message}
    (hx : x ∈ e.sentSince (e.reject peer fault)) (htype : x.2.type = .acknowledgement) :
    x.1 = peer ∧ ∃ number cause,
      fault = .badOption x.2.id x.2.token .confirmable number cause := by
  have hsent (outgoing : Outgoing) (messages : List (Endpoint × Message))
      (hx : x ∈ e.sentSince ({ e with outgoing }.transmitAll messages)) : x ∈ messages := by
    have hall : ({ e with outgoing }.transmitAll messages).sent =
        e.sent ++ if e.outboxOpen then messages else [] := sent_transmitAll_eq ..
    rw [sentSince_of_append hall] at hx
    split at hx
    · exact hx
    · cases hx
  have hnothing (hx : x ∈ e.sentSince e) : False := by
    rw [sentSince_of_eq rfl] at hx
    cases hx
  cases fault with
  | malformed id? =>
    cases id? with
    | none => exact absurd hx hnothing
    | some id =>
      have hreset := hsent e.outgoing [(peer, .resetOf id)] hx
      rw [List.mem_singleton.1 hreset] at htype
      cases htype
  | badOption id token type number cause =>
    cases type with
    | confirmable =>
      have hreply := hsent e.outgoing
        [(peer, badOptionReply .acknowledgement id token cause)] hx
      obtain ⟨_, _, hsame⟩ := sameHeader_badOptionReply .acknowledgement id token cause
      rw [List.mem_singleton.1 hreply, hsame]
      exact ⟨rfl, number, cause, rfl⟩
    | nonConfirmable =>
      obtain ⟨messages, hnumbered, hmessages⟩ := exists_sendNumbered e peer
        (badOptionReply .nonConfirmable id token cause)
      have hreject : e.reject peer (.badOption id token .nonConfirmable number cause) = _ :=
        hnumbered
      rw [hreject] at hx
      obtain ⟨-, hresult⟩ := hmessages x.1 x.2 (hsent _ messages hx)
      -- the reply is not confirmable, and is given an ID and nothing else
      rw [Outgoing.eq_of_send hresult] at htype
      have hsame := (sameHeader_badOptionReply .nonConfirmable id token cause).type_eq
      cases htype.symm.trans hsame
    | acknowledgement | reset => exact absurd hx hnothing

/-- In every history the tokens of what is kept for duplicates are accounted for. -/
theorem fits_play (hnobody : e.delayed = [])
    (hlifetime : e.incoming.exchangeLifetime = lifetime) (htimely : e.Timely turns)
    (hfits : Fits (Accounted lifetime e []) e) :
    Fits (Accounted lifetime e turns) (e.play turns) := by
  induction turns using List.reverseRecOn with
  | nil => exact hfits
  | append_singleton turns turn ih =>
    have hbefore := ih htimely.append.1
    rw [play_append]
    by_cases hdecoded : ∃ peer fault, turn.event = .handle peer (.error fault)
    · obtain ⟨peer, fault, hevent⟩ := hdecoded
      obtain ⟨service, event⟩ := turn
      obtain rfl : event = .handle peer (.error fault) := hevent
      obtain ⟨outgoing, messages, hreject, hrepeats⟩ :=
        reject_frame ((e.play turns).under service) peer fault
      have hafter : (e.play turns).play [⟨service, .handle peer (.error fault)⟩] = _ := hreject
      obtain ⟨log, hlog⟩ := transmitAll_frame messages
        { (e.play turns).under service with outgoing }
      rw [hafter, hlog]
      exact ⟨hbefore.sound, fun k m hm => (hrepeats k m hm).elim (hbefore.repeats k m) id,
        fun k m hm => (hbefore.kept k m hm).concat fun x hx => by cases hx⟩
    · rw [not_exists] at hdecoded
      exact (fits_after hnobody hlifetime htimely
        (fun peer fault hevent => hdecoded peer ⟨fault, hevent⟩) hbefore).toFits

theorem fits_start (c : Config) (chances : Chances) (service : Service)
    (resources : List (String × Resource)) :
    Fits right (start c chances service resources) where
  sound := Incoming.sound_start c
  repeats _ _ hm := by cases hm
  kept := by
    rintro k m ⟨expires, hm⟩
    cases hm

/-- **A response on an acknowledgement has the token of the latest request under its ID.**  In
every history of a node, whatever its settings are and however long its handlers take, this holds
of each acknowledgement with content that is put into the outbox for a peer, unless

* it rejects a request with an unacceptable option that could not be decoded;
* the response left when another request under the same ID, with another token, had been let in,
  a lifetime after its own, which is still the latest;
* or the application chose the type, ID and token of the message itself, and no request has been
  let in under the ID since. -/
theorem piggybacked_latest (c : Config) (chances : Chances) (service : Service)
    (resources : List (String × Resource)) (turns : List Turn)
    (htimely : (start c chances service resources).Timely turns) :
    let e := start c chances service resources
    ∀ before turn after, turns = before ++ turn :: after →
      ∀ peer m, (peer, m) ∈ (e.play before).sentSince (e.play (before ++ [turn])) →
        m.type = .acknowledgement → ¬ m.isEmpty →
        (∃ number cause, turn.event =
          .handle peer (.error (.badOption m.id m.token .confirmable number cause))) ∨
        e.AskedLatest (before ++ [turn]) ⟨peer, m.id⟩ m.token ∨
        Overtaken c.exchangeLifetime e (before ++ [turn]) ⟨peer, m.id⟩ m.token ∨
        e.Chosen (before ++ [turn]) ⟨peer, m.id⟩ m.token := by
  rintro e before turn after rfl peer m hsent htype hfull
  have hsplit : before ++ turn :: after = before ++ [turn] ++ after := by simp
  rw [hsplit] at htimely
  have hpart : e.Timely (before ++ [turn]) := htimely.append.1
  have hplayed : e.play (before ++ [turn]) = (e.play before).after turn := by
    rw [play_append]
    rfl
  rw [hplayed] at hsent
  by_cases hdecoded : ∃ peer fault, turn.event = .handle peer (.error fault)
  · obtain ⟨client, fault, hevent⟩ := hdecoded
    obtain ⟨service', event⟩ := turn
    obtain rfl : event = .handle client (.error fault) := hevent
    obtain ⟨hpeer, number, cause, hfault⟩ :=
      badOption_of_reject (e := (e.play before).under service') hsent htype
    obtain rfl : peer = client := hpeer
    exact .inl ⟨number, cause, by rw [hfault]⟩
  · rw [not_exists] at hdecoded
    have hlifetime : e.incoming.exchangeLifetime = c.exchangeLifetime := rfl
    have hbefore : Fits (Accounted c.exchangeLifetime e before) (e.play before) :=
      fits_play rfl hlifetime hpart.append.1 (fits_start ..)
    obtain ⟨later, hlater, hsuits⟩ := (fits_after rfl hlifetime hpart
      (fun peer fault hevent => hdecoded peer ⟨fault, hevent⟩) hbefore).since
    rw [sentSince_of_append hlater] at hsent
    exact .inr (hsuits (peer, m) hsent htype hfull)

/-- A handler answers at once, and the request is repeated.  The response goes out again on the
acknowledgement, and has the token of the request. -/
theorem piggybacked_latest_duplicate :
    let client : Endpoint := ⟨1⟩
    let token : Token := ⟨[1], by decide⟩
    let request : Message := { type := .confirmable, code := .request .get, id := 10, token }
    let response : Message := { type := .nonConfirmable, code := .response .content, id := 7 }
    let prompt : Service := fun _ => { reaction := .respond response }
    let chances : Chances := ⟨.constant 1000, .constant (.ofNat 100), .constant 0, .constant 0⟩
    let arrival : Turn := ⟨prompt, .handle client (.ok request)⟩
    let e := start .standard chances prompt []
    e.Timely [arrival, arrival] ∧
    ∃ m, (e.play [arrival]).sentSince (e.play [arrival, arrival]) = [(client, m)] ∧
      m.type = .acknowledgement ∧ ¬ m.isEmpty ∧
      e.AskedLatest [arrival, arrival] ⟨client, m.id⟩ m.token := by
  intro client token request response prompt chances arrival e
  have htimely : e.Timely [arrival, arrival] := ⟨trivial, trivial, trivial⟩
  have hpeers : ((e.play [arrival]).sentSince (e.play [arrival, arrival])).map
      (fun x => (x.1, x.2.type, x.2.isEmpty)) = [(client, .acknowledgement, false)] := by
    decide +kernel
  obtain ⟨⟨peer, m⟩, hsent, hfacts⟩ := List.map_eq_singleton_iff.1 hpeers
  obtain ⟨rfl, htype, hfull⟩ : peer = client ∧ m.type = .acknowledgement ∧ m.isEmpty = false := by
    simpa only [Prod.mk.injEq] using hfacts
  have hfull : ¬ m.isEmpty := by simp [hfull]
  have htokens : (e.gather askings [arrival, arrival]).map (·.request.token) = [token] := by
    decide +kernel
  have hmem : (client, m) ∈ (e.play [arrival]).sentSince (e.play [arrival, arrival]) := by
    rw [hsent]
    exact List.mem_singleton_self _
  refine ⟨htimely, m, hsent, htype, hfull, ?_⟩
  rcases piggybacked_latest .standard chances prompt [] [arrival, arrival] htimely [arrival] arrival
    [] rfl client m hmem htype hfull with ⟨_, _, hevent⟩ | hlatest | ⟨before, turn, after, hturns,
      ⟨-, x, y, hx, -, hxtoken, hlatest, hother, -⟩, -⟩ | ⟨before, turn, after, hturns, hchooses, -⟩
  · cases hevent
  · exact hlatest
  · -- only the one request was let in
    have hasked (z : Asking) (hz : z ∈ e.gather askings (before ++ [turn])) :
        z.request.token = token := by
      have hz : z.request.token ∈ (e.gather askings [arrival, arrival]).map (·.request.token) := by
        refine List.mem_map_of_mem ?_
        have hsplit : [arrival, arrival] = before ++ [turn] ++ after := by
          simpa using hturns
        rw [hsplit, gather_append]
        exact List.mem_append_left _ hz
      rw [htokens] at hz
      exact List.mem_singleton.1 hz
    have hy := (List.mem_filter.1 (List.mem_of_getLast? hlatest)).1
    exact absurd ((hasked y hy).trans ((hasked x hx).symm.trans hxtoken)) hother
  · have hturn : turn ∈ [arrival] ++ [arrival] := by
      rw [hturns]
      simp
    obtain rfl : turn = arrival := by simpa using hturn
    exact absurd hchooses id

/-- **Overtaken.**  A handler takes longer than the ID of its request is remembered.  Meanwhile the
peer has used the ID again, for a request whose acknowledgement waits; and the response goes out
on that one, with the token of the request before. -/
theorem piggybacked_overtaken :
    let client : Endpoint := ⟨1⟩
    let first : Message :=
      { type := .confirmable, code := .request .get, id := 10, token := ⟨[1], by decide⟩ }
    let second : Message := { first with token := ⟨[2], by decide⟩ }
    let response : Message := { type := .nonConfirmable, code := .response .content, id := 7 }
    let slow : Service := fun _ => { reaction := .after (.ofSeconds 248) (.respond response) }
    let idle : Service := fun _ => { reaction := .hold }
    let chances : Chances := ⟨.constant 1000, .constant (.ofNat 100), .constant 0, .constant 0⟩
    let turns : List Turn := [⟨slow, .handle client (.ok first)⟩,
      ⟨idle, .fire (Duration.ofMillis 247500)⟩, ⟨idle, .handle client (.ok second)⟩]
    let later : Turn := ⟨idle, .fire (Duration.ofSeconds 248)⟩
    let e := start .standard chances slow []
    e.Timely (turns ++ [later]) ∧
    ((e.play turns).sentSince (e.play (turns ++ [later]))).map
      (fun x => (x.1, x.2.type, x.2.code, x.2.id, x.2.token)) =
        [(client, .acknowledgement, .response .content, 10, first.token)] ∧
    (latestAsked? ⟨client, 10⟩ (e.gather askings (turns ++ [later]))).map (·.request.token) =
      some second.token := by
  intro client first second response slow idle chances turns later e
  have hfirst : (e.play (turns.take 1)).now ≤ Duration.ofMillis 247500 := by decide +kernel
  have hlater : (e.play turns).now ≤ Duration.ofSeconds 248 := by decide +kernel
  have hsent : ((e.play turns).sentSince (e.play (turns ++ [later]))).map
      (fun x => (x.1, x.2.type, x.2.code, x.2.id, x.2.token)) =
        [(client, .acknowledgement, .response .content, 10, first.token)] := by decide +kernel
  exact ⟨⟨trivial, hfirst, trivial, hlater, trivial⟩, hsent, by decide +kernel⟩

end Coap.Engine
