/-
# Every request once, and its own response

A network may lose datagrams, repeat them, delay them and mix them up.  Even so the server calls
its handlers once at most for each request of the client, and whoever has sent a request hears at
most once of a response: the one that was made for this request.
-/
import Coap.Proofs.Network.Soundness
import Coap.Proofs.Observe.Lifecycle

namespace Coap

/-! ## Nodes that are started -/

theorem Setup.unobserved_start (s : Setup) : s.start.Unobserved := by
  intro key
  show (Subscriptions.attachAll _ _).entries.get? key = none
  rw [Subscriptions.entries_attachAll]
  rfl

theorem Setup.not_holds_start (s : Setup) (peer : Endpoint) (m : Message) :
    ¬ s.start.Holds peer m := by
  intro h
  cases h with
  | sent hsent => cases hsent
  | repeated id hopen => cases hopen
  | kept id hkept =>
    obtain ⟨expires, hget⟩ := hkept
    cases hget

namespace Network

variable {n : Network} {last : Instant} {exponent : Nat} {submitted : List Submission}
  {served : List Serving} {answered : List Answer} {history : List Event}

/-! ## The invariant of a run -/

/-- What holds of both nodes. -/
def Sound (last : Instant) (exponent : Nat) (submitted : List Submission)
    (served : List Serving) (answered : List Answer) (n : Network) : Prop :=
  ∃ number, ClientSound n.serverAt n.clientAt number submitted answered n.client ∧
    ServerSound n.clientAt last exponent number submitted served answered n.server

theorem sound_start (clientAt serverAt : Endpoint) (client server : Setup)
    (hlong : last < server.config.exchangeLifetime ∧ last < server.config.nonLifetime) :
    (start clientAt serverAt client server).Sound last server.config.maxBlockExponent [] [] [] := by
  refine ⟨fun _ => 0, ?_, ?_⟩
  · exact {
      simple := fun _ hx => by cases hx
      unobserved := client.unobserved_start
      idle := rfl
      holds := fun p m hm => absurd hm (client.not_holds_start p m)
      conversations := fun _ _ hc => by cases hc
      told := fun _ ht => by cases ht
      closed := fun _ ht => by cases ht
      once := List.nodup_nil }
  · exact {
      unobserved := server.unobserved_start
      now := Nat.zero_le last
      lifetimes := hlong
      maxExponent := rfl
      holds := fun p m hm => absurd hm (server.not_holds_start p m)
      asked := fun _ hs => by cases hs
      remembered := fun _ hs => by cases hs
      once := List.nodup_nil
      tasks := List.Subperm.refl _
      called := rfl }

/-- What may happen depends on where the server is, and it stays there. -/
theorem permits_step (event next : Event) :
    (n.step event).Permits last next ↔ n.Permits last next := by
  cases event <;> exact Iff.rfl

/-- An event at the client that may happen is inside it, or a simple request is submitted. -/
theorem Permits.cases {event : Engine.Event} (h : n.Permits last (.client event)) :
    event.IsInner ∨ ∃ m r, IsSimple m ∧ event = .submit n.serverAt m r := by
  cases event with
  | submit peer m r =>
    obtain ⟨rfl, hsimple⟩ := h
    exact .inr ⟨m, r, hsimple, rfl⟩
  | _ => exact .inl h

namespace Sound

/-- Something happens at the client, beside what comes from the server. -/
theorem client {event : Engine.Event}
    (h : n.Sound last exponent submitted served answered)
    (hpermitted : n.Permits last (.client event))
    (hdistinct : ((submitted ++ n.client.submitted event).map (·.request.token)).Nodup) :
    { n with client := n.client.step event }.Sound last exponent
      (submitted ++ n.client.submitted event) served answered := by
  obtain ⟨number, hclient, hserver⟩ := h
  rcases hpermitted.cases with hinner | ⟨m, r, hsimple, rfl⟩
  · have hnothing : n.client.submitted event = [] := by
      cases event with
      | submit | handle | absorb => exact absurd hinner id
      | _ => rfl
    rw [hnothing, List.append_nil]
    exact ⟨number, hclient.inner hinner, hserver⟩
  · cases htokened : (n.client.withToken n.serverAt m).1 with
    | error failure =>
      have hnothing : n.client.submitted (.submit n.serverAt m r) = [] := by
        simp only [Engine.submitted, htokened]
      rw [hnothing, List.append_nil]
      exact ⟨number, hclient.submit_of_error htokened r, hserver⟩
    | ok sent =>
      have hone : n.client.submitted (.submit n.serverAt m r) = [⟨sent, r⟩] := by
        simp only [Engine.submitted, htokened]
      rw [hone] at hdistinct ⊢
      -- distinct tokens at the end were distinct all along
      have hnew : sent.token ∉ submitted.map (·.request.token) := by
        rw [List.map_append] at hdistinct
        intro hold
        exact (List.nodup_append.1 hdistinct).2.2 _ hold _ (List.mem_singleton_self _) rfl
      obtain ⟨id, hsubmitted⟩ := hclient.submit hsimple htokened hnew r
      exact ⟨_, hsubmitted, hserver.submit (x := ⟨sent, r⟩) hnew id⟩

/-- Something happens at the server, beside what comes from the client. -/
theorem server {event : Engine.Event}
    (h : n.Sound last exponent submitted served answered)
    (hdistinct : (submitted.map (·.request.token)).Nodup) (hinner : event.IsInner)
    (hsuits : event.Suits last) (hwhole : ∀ a ∈ n.server.answered event, IsWhole a exponent) :
    { n with server := n.server.step event }.Sound last exponent submitted
      (served ++ n.server.servings event) (answered ++ n.server.answered event) := by
  obtain ⟨number, hclient, hserver⟩ := h
  refine ⟨number, hclient.mono _, hserver.step hclient.simple hdistinct hsuits ?_ hwhole⟩
  intro s hs
  rw [Engine.servings_of_inner hinner] at hs
  cases hs

/-- A datagram that the client has sent comes to the server. -/
theorem toServer {event : Engine.Event} {i : Nat} {concludes : Bool}
    (h : n.Sound last exponent submitted served answered)
    (hdistinct : (submitted.map (·.request.token)).Nodup)
    (hevent : n.serverEvent? (.toServer i concludes) = some event)
    (hwhole : ∀ a ∈ n.server.answered event, IsWhole a exponent) :
    { n with server := n.server.step event }.Sound last exponent submitted
      (served ++ n.server.servings event) (answered ++ n.server.answered event) := by
  obtain ⟨number, hclient, hserver⟩ := h
  obtain ⟨m, hm, hbrings⟩ := hears hevent fun m hm => by
    rcases hclient.holds _ _ hm with hsignal | ⟨-, hnumbered⟩
    · exact ⟨hsignal.built, fun hplace => hsignal.spec.2.2.2 hplace.1⟩
    · have hsimple := hnumbered.simple hclient.simple
      refine ⟨hsimple.built, fun hplace => ?_⟩
      exact Message.not_isEmpty_of_isRequest hsimple.request (beq_iff_eq.2 hplace.2)
  have hrequest := (hclient.holds _ _ hm).imp_right And.right
  exact ⟨number, hclient.mono _,
    hserver.arrival hclient.simple hdistinct hbrings hrequest hwhole⟩

/-- A datagram that the server has sent comes to the client. -/
theorem toClient {event : Engine.Event} {i : Nat} {concludes : Bool}
    (h : n.Sound last exponent submitted served answered)
    (hevent : n.clientEvent? (.toClient i concludes) = some event)
    (hwhole : ∀ a ∈ answered, IsWhole a exponent) :
    { n with client := n.client.step event }.Sound last exponent submitted served answered := by
  obtain ⟨number, hclient, hserver⟩ := h
  obtain ⟨m, hm, hbrings⟩ := hears hevent fun m hm => by
    rcases hserver.holds _ _ hm with hsignal | ⟨a, ha, hvoiced⟩
    · exact ⟨hsignal.built, fun hplace => hsignal.spec.2.2.2 hplace.1⟩
    · obtain ⟨hbuilt, hresponse, -⟩ := (hwhole a ha).spec hvoiced
      refine ⟨hbuilt, fun hplace => ?_⟩
      exact Message.not_isEmpty_of_isResponse hresponse (beq_iff_eq.2 hplace.2)
  exact ⟨number, hclient.arrival hwhole hbrings (hserver.holds _ _ hm), hserver⟩

/-- **Both nodes stay sound**, whatever the network does. -/
theorem step {event : Event} (h : n.Sound last exponent submitted served answered)
    (hpermitted : n.Permits last event)
    (hdistinct : ((submitted ++ n.newSubmissions event).map (·.request.token)).Nodup)
    (hwhole : ∀ a ∈ answered ++ n.newAnswers event, IsWhole a exponent) :
    (n.step event).Sound last exponent (submitted ++ n.newSubmissions event)
      (served ++ n.newServings event) (answered ++ n.newAnswers event) := by
  have hbefore : (submitted.map (·.request.token)).Nodup := by
    rw [List.map_append] at hdistinct
    exact (List.nodup_append.1 hdistinct).1
  have hmade : ∀ a ∈ n.newAnswers event, IsWhole a exponent := fun a ha =>
    hwhole a (List.mem_append_right _ ha)
  cases event with
  | client event =>
    have hservings : n.newServings (.client event) = [] := rfl
    have hanswers : n.newAnswers (.client event) = [] := rfl
    rw [hservings, hanswers, List.append_nil, List.append_nil]
    exact h.client hpermitted hdistinct
  | server event =>
    have hsubmissions : n.newSubmissions (.server event) = [] := rfl
    rw [hsubmissions, List.append_nil]
    exact h.server hbefore hpermitted.1 hpermitted.2 hmade
  | serves service =>
    -- the handlers that are called so far and the waits that they began are as before
    have hnothing : n.newSubmissions (.serves service) = [] ∧
        n.newServings (.serves service) = [] ∧ n.newAnswers (.serves service) = [] :=
      ⟨rfl, rfl, rfl⟩
    rw [hnothing.1, hnothing.2.1, hnothing.2.2, List.append_nil, List.append_nil, List.append_nil]
    obtain ⟨number, hclient, hserver⟩ := h
    exact ⟨number, hclient, hserver.serves service⟩
  | toServer i concludes =>
    -- there may be no such datagram, and then nothing happens
    have hsubmissions : n.newSubmissions (.toServer i concludes) = [] := rfl
    rw [hsubmissions, List.append_nil]
    have hstep : n.step (.toServer i concludes) = { n with
      server := (n.serverEvent? (.toServer i concludes)).elim n.server n.server.step } := rfl
    rw [hstep]
    unfold newServings newAnswers at hmade ⊢
    cases hevent : n.serverEvent? (.toServer i concludes) with
    | none =>
      rw [Option.elim_none, Option.elim_none, List.append_nil, List.append_nil]
      exact h
    | some event =>
      rw [hevent] at hmade
      exact h.toServer hbefore hevent hmade
  | toClient i concludes =>
    have hservings : n.newServings (.toClient i concludes) = [] := rfl
    have hanswers : n.newAnswers (.toClient i concludes) = [] := rfl
    rw [hservings, hanswers, List.append_nil, List.append_nil]
    rw [hanswers, List.append_nil] at hwhole
    have hstep : n.step (.toClient i concludes) = { n with
      client := (n.clientEvent? (.toClient i concludes)).elim n.client n.client.step } := rfl
    rw [hstep]
    unfold newSubmissions
    cases hevent : n.clientEvent? (.toClient i concludes) with
    | none =>
      rw [Option.elim_none, List.append_nil]
      exact h
    | some event =>
      have hnothing : n.client.submitted event = [] := by
        obtain ⟨datagram, -, rfl⟩ := Option.map_eq_some_iff.1 hevent
        exact Engine.submitted_arrival _ _ _ _
      rw [Option.elim_some, hnothing, List.append_nil]
      exact h.toClient hevent hwhole

/-- A sound network stays sound in a whole run. -/
theorem run (h : n.Sound last exponent submitted served answered)
    (hpermitted : ∀ event ∈ history, n.Permits last event)
    (hdistinct : ((submitted ++ n.submissions history).map (·.request.token)).Nodup)
    (hwhole : ∀ a ∈ answered ++ n.answered history, IsWhole a exponent) :
    (n.run history).Sound last exponent (submitted ++ n.submissions history)
      (served ++ n.servings history) (answered ++ n.answered history) := by
  -- what was submitted, served and answered before grows with each event
  induction history generalizing n submitted served answered with
  | nil =>
    have hnothing : n.submissions [] = [] ∧ n.servings [] = [] ∧ n.answered [] = [] :=
      ⟨rfl, rfl, rfl⟩
    rw [hnothing.1, hnothing.2.1, hnothing.2.2, List.append_nil, List.append_nil, List.append_nil]
    exact h
  | cons event rest ih =>
    have hsubmissions : n.submissions (event :: rest) =
      n.newSubmissions event ++ (n.step event).submissions rest := rfl
    have hservings : n.servings (event :: rest) =
      n.newServings event ++ (n.step event).servings rest := rfl
    have hanswered : n.answered (event :: rest) =
      n.newAnswers event ++ (n.step event).answered rest := rfl
    rw [hsubmissions, ← List.append_assoc] at hdistinct ⊢
    rw [hanswered, ← List.append_assoc] at hwhole ⊢
    rw [hservings, ← List.append_assoc]
    have hfirst := h.step (hpermitted event List.mem_cons_self)
      (by rw [List.map_append] at hdistinct; exact (List.nodup_append.1 hdistinct).1)
      fun a ha => hwhole a (List.mem_append_left _ ha)
    refine ih hfirst (fun next hnext => ?_) hdistinct hwhole
    exact (permits_step event next).2 (hpermitted next (List.mem_cons_of_mem _ hnext))

end Sound

/-! ## Delivery -/

/-- What a run makes of the requests of the client.  Requests are told apart by their tokens. -/
structure DeliversOnce (n : Network) (history : List Event) : Prop where
  /-- What the server serves are requests of the client. -/
  served : ∀ s ∈ n.servings history, s.peer = n.clientAt ∧
    ∃ x ∈ n.submissions history, ∃ id, s.request = { x.request with id }
  /-- A request is served once at most. -/
  served_once : ((n.servings history).map (·.request.token)).Nodup
  /-- Handlers are called for requests that are served, and for nothing else. -/
  called : (n.run history).server.called = (n.servings history).filterMap (·.call.handler?)
  /-- Each response is the one that was made for a request that was served. -/
  answered : ∀ a ∈ n.answered history, Engine.Made a ∧
    ∃ s ∈ n.servings history, a.toTask = s.task
  /-- A request is answered once at most. -/
  answered_once : ((n.answered history).map (·.request.token)).Nodup
  /-- A response that somebody is told of comes from the server, and is the one that was made
  for the request of this requester. -/
  told : ∀ name peer m, (name, peer, m) ∈ (n.run history).client.responses →
    peer = n.serverAt ∧ ∃ x ∈ n.submissions history, ∃ a ∈ n.answered history,
      x.requester.name = name ∧ x.request.token = m.token ∧
      (∃ id, a.request = { x.request with id }) ∧
      m.code = a.response.code ∧ m.options = a.response.options ∧ m.payload = a.response.payload
  /-- There is one response to a request at most that anybody is told of. -/
  told_once : ((n.run history).client.responses.map (·.2.2.token)).Nodup

theorem made_answered (n : Network) (history : List Event) :
    ∀ a ∈ n.answered history, Engine.Made a := by
  induction history generalizing n with
  | nil => exact fun _ ha => by cases ha
  | cons event rest ih =>
    intro a ha
    rcases List.mem_append.1 ha with hfirst | hrest
    · unfold newAnswers at hfirst
      cases hevent : n.serverEvent? event with
      | none =>
        rw [hevent] at hfirst
        cases hfirst
      | some event =>
        rw [hevent] at hfirst
        exact n.server.made_answered event a hfirst
    · exact ih _ a hrest

theorem endpoints_run (n : Network) (history : List Event) :
    (n.run history).clientAt = n.clientAt ∧ (n.run history).serverAt = n.serverAt := by
  induction history generalizing n with
  | nil => exact ⟨rfl, rfl⟩
  | cons event rest ih =>
    have hstep : (n.step event).clientAt = n.clientAt ∧ (n.step event).serverAt = n.serverAt := by
      cases event <;> exact ⟨rfl, rfl⟩
    exact ⟨(ih _).1.trans hstep.1, (ih _).2.trans hstep.2⟩

/-- A response that the client has told of was made for the request under its token. -/
theorem Sound.told (h : n.Sound last exponent submitted served answered)
    (hdistinct : (submitted.map (·.request.token)).Nodup) {name : String} {peer : Endpoint}
    {m : Message} (ht : (name, peer, m) ∈ n.client.responses) :
    peer = n.serverAt ∧ ∃ x ∈ submitted, ∃ a ∈ answered,
      x.requester.name = name ∧ x.request.token = m.token ∧
      (∃ id, a.request = { x.request with id }) ∧
      m.code = a.response.code ∧ m.options = a.response.options ∧
      m.payload = a.response.payload := by
  obtain ⟨number, hclient, hserver⟩ := h
  obtain ⟨hpeer, ⟨x, hx, hname, htoken⟩, a, ha, -, type, id, rfl⟩ := hclient.told _ ht
  refine ⟨hpeer, x, hx, a, ha, hname, htoken, ?_, rfl, rfl, rfl⟩
  -- the request that was answered is the one under the token of the response
  obtain ⟨s, hs, hsame⟩ := hserver.served_of_answered ha
  obtain ⟨-, y, hy, hrequest⟩ := hserver.asked s hs
  have hanswered : a.request = { y.request with id := number y.request.token } :=
    (congrArg Task.request hsame).trans hrequest
  have hother : a.request.token = y.request.token := by rw [hanswered]
  have hxy : x = y := eq_of_token hdistinct hx hy (htoken.trans hother)
  exact ⟨_, hxy ▸ hanswered⟩

/-- **Every request once, and its own response.**  The clock of the server does not get as far
as the lifetimes of messages, requests have distinct tokens and responses are whole.  Then the
handlers are called once at most for a request, and a requester is told once at most of a
response to it, which is the one that was made for it. -/
theorem delivered_once (clientAt serverAt : Endpoint) (client server : Setup) (last : Instant)
    (history : List Event)
    (hlong : last < server.config.exchangeLifetime ∧ last < server.config.nonLifetime)
    (hpermitted : ∀ event ∈ history, (start clientAt serverAt client server).Permits last event)
    (hdistinct : (((start clientAt serverAt client server).submissions history).map
      (·.request.token)).Nodup)
    (hwhole : ∀ a ∈ (start clientAt serverAt client server).answered history,
      IsWhole a server.config.maxBlockExponent) :
    (start clientAt serverAt client server).DeliversOnce history := by
  let n := start clientAt serverAt client server
  have hsound : (n.run history).Sound last server.config.maxBlockExponent (n.submissions history)
      (n.servings history) (n.answered history) :=
    (sound_start clientAt serverAt client server hlong).run hpermitted hdistinct hwhole
  obtain ⟨hclientAt, hserverAt⟩ := n.endpoints_run history
  have htold {t : String × Endpoint × Message} (ht : t ∈ (n.run history).client.responses) :=
    hsound.told hdistinct ht
  obtain ⟨number, hclient, hserver⟩ := hsound
  exact {
    served := by
      intro s hs
      obtain ⟨hpeer, x, hx, hrequest⟩ := hserver.asked s hs
      exact ⟨hpeer.trans hclientAt, x, hx, _, hrequest⟩
    served_once := hserver.once
    called := hserver.called
    answered := by
      intro a ha
      exact ⟨made_answered n history a ha, hserver.served_of_answered ha⟩
    answered_once := hserver.answered_once
    told := by
      intro name peer m ht
      rw [← hserverAt]
      exact htold ht
    told_once := hclient.once }

/-- Two requests are sent, and the first of them again after two seconds.  The server gets the
second request first and the first one twice, and the client gets one of the responses twice. -/
theorem delivered_once_out_of_order :
    let clientAt : Endpoint := ⟨1⟩
    let serverAt : Endpoint := ⟨2⟩
    let chances : Chances :=
      ⟨.constant 1000, .constant (.ofNat 100), .constant 0, .constant 0⟩
    let client : Setup := ⟨.standard, chances, fun _ => { reaction := .hold }, []⟩
    let echo (m : Message) : Message := ((m.replyTo .content).setPayload m.payload).message
    let server : Setup := ⟨.standard, chances,
      fun r => { handler? := some "echo", reaction := .respond (echo r.message) }, []⟩
    let first : Message :=
      { type := .confirmable, code := .request .post, id := 0, token := ⟨[1], by decide⟩,
        payload := [0x61] }
    let second : Message :=
      { type := .nonConfirmable, code := .request .post, id := 0, token := ⟨[2], by decide⟩,
        payload := [0x62] }
    let history : List Event := [.client (.submit serverAt first ⟨"first", .full⟩),
      .client (.submit serverAt second ⟨"second", .full⟩),
      .client (.fire (Duration.ofSeconds 2)), .toServer 1 true, .toServer 0 true,
      .server (.pass (Duration.ofSeconds 2)), .toServer 2 true, .toClient 1 true,
      .toClient 0 false, .toClient 2 true, .toClient 1 true]
    let n := start clientAt serverAt client server
    n.DeliversOnce history ∧
      ((n.run history).client.datagrams serverAt).length = 3 ∧
      ((n.run history).server.datagrams clientAt).length = 3 ∧
      (n.run history).server.called = ["echo", "echo"] ∧
      (n.run history).client.responses.map (fun t => (t.1, t.2.2.payload)) =
        [("first", [0x61]), ("second", [0x62])] := by
  intro clientAt serverAt chances client echo server first second history n
  have hlast : Duration.ofSeconds 2 < server.config.exchangeLifetime ∧
      Duration.ofSeconds 2 < server.config.nonLifetime := by decide +kernel
  have hsimple : IsSimple first ∧ IsSimple second := by
    have hbuilt (type : MessageType) (token : Token) (payload : Bytes) :
        Built { type, code := .request .post, id := 0, token, payload } :=
      .change (.change (.new type (.request .post) 0) (.setToken token)) (.setPayload payload)
    exact ⟨⟨hbuilt _ _ _, rfl, .inl rfl, by decide⟩, ⟨hbuilt _ _ _, rfl, .inr rfl, by decide⟩⟩
  have hpermitted : ∀ event ∈ history, n.Permits (Duration.ofSeconds 2) event := by
    simp [history, Permits, Engine.Event.IsInner, Engine.Event.Suits, hsimple, n, start]
  have hdistinct : ((n.submissions history).map (·.request.token)).Nodup := by decide +kernel
  have hresponses : (n.answered history).map (·.response) =
      [echo { second with id := 1001 }, echo { first with id := 1000 }] := by decide +kernel
  have hwhole : ∀ a ∈ n.answered history, IsWhole a server.config.maxBlockExponent := by
    have hbuilt (m : Message) : Built (echo m) :=
      .change (.replyTo m .content) (.setPayload m.payload)
    have hechoes : ∀ m ∈ (n.answered history).map (·.response), Built m ∧
        (m.isResponse = true ∧
          m.payload.length ≤ Block.sizeOfExponent server.config.maxBlockExponent) ∧
        m.observed? = none := by
      rw [hresponses]
      intro m hm
      rcases List.mem_pair.1 hm with rfl | rfl
      · exact ⟨hbuilt _, by decide, by decide⟩
      · exact ⟨hbuilt _, by decide, by decide⟩
    intro a ha
    obtain ⟨hmade, hfits, hobserved⟩ := hechoes _ (List.mem_map_of_mem ha)
    exact ⟨hmade, hfits, hobserved⟩
  exact ⟨delivered_once clientAt serverAt client server _ history hlast hpermitted hdistinct hwhole,
    by decide +kernel, by decide +kernel, by decide +kernel, by decide +kernel⟩

end Network

end Coap
