/-
# What holds of a client and a server

A request is known by its token, and the message that it goes out as has one ID.  The server
serves a message once in its lifetime, so it serves a request once; it makes one response to it
at most, and all that it says besides signals are these responses, under the tokens of their
requests.  The client passes a response on if there is a conversation under its token, and closes
the conversation.  These are the parts of one invariant, of both nodes and of everything that
either of them has to say (`ClientSound`, `ServerSound`).
-/
import Coap.Proofs.Network.Runs
import Mathlib.Data.List.Nodup
import Mathlib.Logic.Function.Basic

namespace Coap.Network

variable {last : Instant} {exponent : Nat} {number : Token → MessageId}
  {clientAt serverAt : Endpoint} {submitted : List Submission} {served : List Serving}
  {answered : List Answer} {client server : Engine} {m : Message}

/-! ## Requests that are known by their tokens -/

/-- A message is a submitted request, under the ID that goes with its token. -/
def Numbered (number : Token → MessageId) (submitted : List Submission) (m : Message) : Prop :=
  ∃ x ∈ submitted, m = { x.request with id := number x.request.token }

/-- The ID of a request with a new token can be chosen. -/
theorem Numbered.update {x : Submission}
    (hnew : x.request.token ∉ submitted.map (·.request.token))
    (h : Numbered number submitted m) (id : MessageId) :
    Numbered (Function.update number x.request.token id) (submitted ++ [x]) m := by
  obtain ⟨y, hy, rfl⟩ := h
  have hother : y.request.token ≠ x.request.token := fun htoken =>
    hnew (List.mem_map.2 ⟨y, hy, htoken⟩)
  refine ⟨y, List.mem_append_left _ hy, ?_⟩
  rw [Function.update_of_ne hother]

/-- A request is determined by its token. -/
theorem eq_of_token {x y : Submission} (hdistinct : (submitted.map (·.request.token)).Nodup)
    (hx : x ∈ submitted) (hy : y ∈ submitted) (htoken : x.request.token = y.request.token) :
    x = y :=
  List.inj_on_of_nodup_map hdistinct hx hy htoken

/-- Two messages for one request are the same. -/
theorem Numbered.unique {m' : Message} (hdistinct : (submitted.map (·.request.token)).Nodup)
    (h : Numbered number submitted m) (h' : Numbered number submitted m')
    (htoken : m.token = m'.token) : m = m' := by
  obtain ⟨x, hx, rfl⟩ := h
  obtain ⟨y, hy, rfl⟩ := h'
  rw [eq_of_token hdistinct hx hy htoken]

/-- The messages for requests are as simple as these. -/
theorem Numbered.simple (hsimple : ∀ x ∈ submitted, IsSimple x.request)
    (h : Numbered number submitted m) : IsSimple m := by
  obtain ⟨x, hx, rfl⟩ := h
  obtain ⟨hbuilt, hrequest, htype, hplain⟩ := hsimple x hx
  exact ⟨.change hbuilt (.setId _), hrequest, htype, hplain⟩

/-- A simple request is one that the server answers in one piece. -/
theorem IsSimple.asks (h : IsSimple m) : Engine.Asks m := ⟨h.request, fun _ => h.plain⟩

/-- A request is as simple as before when it has got its token. -/
theorem IsSimple.of_withToken {peer : Endpoint} {sent : Message} (h : IsSimple m)
    (htokened : (client.withToken peer m).1 = .ok sent) : IsSimple sent := by
  unfold Engine.withToken at htokened
  split at htokened
  · simp only at htokened
    split at htokened
    · cases htokened
    · next token _ =>
      have hfull : ¬ m.isEmpty := Message.not_isEmpty_of_isRequest h.request
      have hset : m.setToken token = ⟨{ m with token }, none⟩ :=
        if_neg fun hempty => hfull hempty.1
      rw [hset] at htokened
      simp only [Edit.toExcept] at htokened
      cases htokened
      exact ⟨h.built.withToken hfull token, h.request, h.type, h.plain⟩
  · cases htokened
    exact h

/-! ## Responses -/

/-- What brings a whole answer can be read, is a response and no notification. -/
theorem IsWhole.spec {a : Answer} {peer : Endpoint} (h : IsWhole a exponent)
    (hvoiced : a.Voiced peer m) : Built m ∧ m.isResponse = true ∧ m.observed? = none := by
  obtain ⟨-, type, id, rfl⟩ := hvoiced
  have hfull : ¬ a.response.isEmpty := Message.not_isEmpty_of_isResponse h.fits.1
  refine ⟨?_, h.fits.1, h.observed⟩
  exact (h.built.withToken hfull a.request.token).readdress type id

/-- A node hears what the other has to say. -/
theorem hears {i : Nat} {concludes : Bool} {peer address : Endpoint} {e : Engine}
    {event : Engine.Event}
    (h : (e.datagrams address)[i]?.map (Engine.arrival peer · concludes) = some event)
    (hheld : ∀ m, e.Holds address m → Built m ∧ ¬(m.type = .nonConfirmable ∧ m.code = .empty)) :
    ∃ m, e.Holds address m ∧ event.Brings peer m := by
  obtain ⟨datagram, hdatagram, rfl⟩ := Option.map_eq_some_iff.1 h
  obtain ⟨m, hm, rfl⟩ := Engine.mem_datagrams hdatagram
  obtain ⟨hbuilt, hplace⟩ := hheld m hm
  exact ⟨m, hm, Engine.arrival_encode hbuilt hplace peer concludes⟩

/-! ## The client -/

/-- What holds of the client: it says nothing but requests and signals, its conversations are
those of submitted requests, and each response that it told of was made by the server, came for
the conversation of the requester, and was the last of this conversation. -/
structure ClientSound (serverAt clientAt : Endpoint) (number : Token → MessageId)
    (submitted : List Submission) (answered : List Answer) (client : Engine) : Prop where
  simple : ∀ x ∈ submitted, IsSimple x.request
  unobserved : client.Unobserved
  idle : client.delayed = []
  holds : ∀ p m, client.Holds p m → m.IsSignal ∨ p = serverAt ∧ Numbered number submitted m
  conversations : ∀ key c, client.conversations.get? key = some c →
    ∃ x ∈ submitted, key = ⟨serverAt, x.request.token⟩ ∧ c.requester = x.requester
  told : ∀ t ∈ client.responses, t.2.1 = serverAt ∧
    (∃ x ∈ submitted, x.requester.name = t.1 ∧ x.request.token = t.2.2.token) ∧
    ∃ a ∈ answered, a.Voiced clientAt t.2.2
  closed : ∀ t ∈ client.responses, client.conversations.get? ⟨serverAt, t.2.2.token⟩ = none
  once : (client.responses.map (·.2.2.token)).Nodup

namespace ClientSound

/-- The server makes more responses. -/
theorem mono (h : ClientSound serverAt clientAt number submitted answered client)
    (more : List Answer) :
    ClientSound serverAt clientAt number submitted (answered ++ more) client := by
  refine { h with told := fun t ht => ?_ }
  obtain ⟨hpeer, hasked, a, ha, hvoiced⟩ := h.told t ht
  exact ⟨hpeer, hasked, a, List.mem_append_left _ ha, hvoiced⟩

/-- What was closed stays closed as long as no conversation is opened. -/
theorem closed_of_kept {e' : Engine}
    (hclosed : ∀ t ∈ client.responses, client.conversations.get? ⟨serverAt, t.2.2.token⟩ = none)
    (hkept : ∀ key c', e'.conversations.get? key = some c' →
      ∃ c, client.conversations.get? key = some c ∧ c'.requester = c.requester)
    (t : String × Endpoint × Message) (ht : t ∈ client.responses) :
    e'.conversations.get? ⟨serverAt, t.2.2.token⟩ = none := by
  refine Option.eq_none_iff_forall_ne_some.2 fun c' hc' => ?_
  obtain ⟨c, hc, -⟩ := hkept _ c' hc'
  rw [hclosed t ht] at hc
  cases hc

/-- Nobody is told of a response, no conversation is opened, and the client comes to say nothing
but signals. -/
theorem of_mute {e' : Engine}
    (h : ClientSound serverAt clientAt number submitted answered client)
    (hmute : Engine.Mute client e') (hunobserved : e'.Unobserved) (hidle : e'.delayed = [])
    (hholds : ∀ p m, e'.Holds p m → client.Holds p m ∨ m.IsSignal) :
    ClientSound serverAt clientAt number submitted answered e' where
  simple := h.simple
  unobserved := hunobserved
  idle := hidle
  holds p m hm := (hholds p m hm).elim (h.holds p m) .inl
  conversations := by
    intro key c' hc'
    obtain ⟨c, hc, hrequester⟩ := hmute.kept key c' hc'
    rw [hrequester]
    exact h.conversations key c hc
  told := hmute.responses ▸ h.told
  closed := by
    rw [hmute.responses]
    exact closed_of_kept h.closed hmute.kept
  once := hmute.responses ▸ h.once

/-- Nothing comes to the client, and no request is submitted. -/
theorem inner {event : Engine.Event}
    (h : ClientSound serverAt clientAt number submitted answered client)
    (hinner : event.IsInner) :
    ClientSound serverAt clientAt number submitted answered (client.step event) := by
  obtain ⟨last, hsuits, hnow⟩ := Engine.Event.exists_suits hinner client.now
  obtain ⟨hunobserved, hidle, hholds⟩ := Engine.idle_step hsuits hnow h.unobserved h.idle
    (Engine.servings_of_inner hinner)
  exact h.of_mute (.step hinner client) hunobserved hidle hholds

/-- A request that gets no token does not go out. -/
theorem submit_of_error {failure : SendFailure}
    (h : ClientSound serverAt clientAt number submitted answered client)
    (htokened : (client.withToken serverAt m).1 = .error failure) (r : Requester) :
    ClientSound serverAt clientAt number submitted answered (client.submit serverAt m r).2 := by
  have hclerical := Engine.Clerical.submit_of_error htokened r
  have hacts : Engine.Acts (fun _ _ => False) 0 [] [] client (client.submit serverAt m r).2 :=
    .of_clerical hclerical
  refine h.of_mute hclerical.toMute (hacts.unobserved h.unobserved) ?_ fun p m' hm' =>
    .inl ((hacts.holds p m' hm').resolve_right id)
  rw [hclerical.delayed, h.idle]

/-- A request with a new token goes out under one ID at most. -/
theorem submit {sent : Message}
    (h : ClientSound serverAt clientAt number submitted answered client) (hsimple : IsSimple m)
    (htokened : (client.withToken serverAt m).1 = .ok sent)
    (hnew : sent.token ∉ submitted.map (·.request.token)) (r : Requester) :
    ∃ id, ClientSound serverAt clientAt (Function.update number sent.token id)
      (submitted ++ [⟨sent, r⟩]) answered (client.submit serverAt m r).2 := by
  let x : Submission := ⟨sent, r⟩
  have hsent : IsSimple sent := hsimple.of_withToken htokened
  have hresponse : ¬ sent.isResponse := fun hresponse => by
    have hrequest := Message.isRequest_of_isResponse hresponse
    rw [hsent.request] at hrequest
    cases hrequest
  have htype : sent.type ≠ .acknowledgement := by
    rcases hsent.type with htype | htype <;> simp [htype]
  obtain ⟨id, hacts⟩ : ∃ id, Engine.Acts (fun p m' => p = serverAt ∧ m' = { sent with id }) 0 [] []
      client (client.submit serverAt m r).2 := Engine.Acts.submit htokened hresponse htype r
  obtain ⟨hresponses, hconversations⟩ := Engine.submit_told htokened r
  refine ⟨id, ?_⟩
  exact {
    simple := by
      intro y hy
      rcases List.mem_append.1 hy with hbefore | hy
      · exact h.simple y hbefore
      · obtain rfl := List.mem_singleton.1 hy
        exact hsent
    unobserved := hacts.unobserved h.unobserved
    idle := by rw [hacts.delayed, h.idle, List.append_nil]
    holds := by
      intro p m' hm'
      -- the messages before keep their IDs, since their tokens are other ones
      rcases hacts.holds p m' hm' with hbefore | ⟨hp, rfl⟩
      · refine (h.holds p m' hbefore).imp_right fun hnumbered => ⟨hnumbered.1, ?_⟩
        exact hnumbered.2.update (x := x) hnew id
      · refine .inr ⟨hp, x, List.mem_append_right _ List.mem_cons_self, ?_⟩
        rw [Function.update_self]
    conversations := by
      intro key c' hc'
      rcases hconversations key c' hc' with ⟨c, hc, hrequester⟩ | ⟨hkey, hrequester⟩
      · obtain ⟨y, hy, hkey, hbefore⟩ := h.conversations key c hc
        exact ⟨y, List.mem_append_left _ hy, hkey, hrequester.trans hbefore⟩
      · exact ⟨x, List.mem_append_right _ List.mem_cons_self, hkey, hrequester⟩
    told := by
      rw [hresponses]
      intro t ht
      obtain ⟨hpeer, ⟨y, hy, hasked⟩, hvoiced⟩ := h.told t ht
      exact ⟨hpeer, ⟨y, List.mem_append_left _ hy, hasked⟩, hvoiced⟩
    closed := by
      rw [hresponses]
      intro t ht
      refine Option.eq_none_iff_forall_ne_some.2 fun c' hc' => ?_
      rcases hconversations _ c' hc' with ⟨c, hc, -⟩ | ⟨hkey, -⟩
      · rw [h.closed t ht] at hc
        cases hc
      · -- the new token is not that of a request that was answered
        obtain ⟨-, ⟨y, hy, -, htoken⟩, -⟩ := h.told t ht
        refine hnew (List.mem_map.2 ⟨y, hy, ?_⟩)
        exact htoken.trans (congrArg ConversationKey.token hkey)
    once := hresponses ▸ h.once }

/-- A signal or a response of the server comes to the client. -/
theorem arrival {event : Engine.Event} {exponent : Nat}
    (h : ClientSound serverAt clientAt number submitted answered client)
    (hwhole : ∀ a ∈ answered, IsWhole a exponent) (hevent : event.Brings serverAt m)
    (hvoices : Engine.Voices answered clientAt m) :
    ClientSound serverAt clientAt number submitted answered (client.step event) := by
  have hspec : m.isRequest = false ∧ m.observed? = none := by
    rcases hvoices with hsignal | ⟨a, ha, hvoiced⟩
    · exact ⟨hsignal.spec.1, hsignal.spec.2.2.1⟩
    · obtain ⟨-, hresponse, hobserved⟩ := (hwhole a ha).spec hvoiced
      exact ⟨Message.isRequest_of_isResponse hresponse, hobserved⟩
  have hasked : ¬ m.isRequest = true := fun hasks => by simp [hspec.1] at hasks
  obtain ⟨hsuits, hserved⟩ := Engine.serves_brought (fun hasks => absurd hasks hasked)
    h.unobserved hevent
  have hservings : client.servings event = [] :=
    List.eq_nil_iff_forall_not_mem.2 fun s hs => hasked (hserved s hs).2.2
  obtain ⟨hunobserved, hidle, hholds⟩ := Engine.idle_step (hsuits client.now) (Nat.le_refl _)
    h.unobserved h.idle hservings
  obtain ⟨told, htells, hone⟩ := Engine.Tells.step hevent hasked hspec.2 h.unobserved
  have hvoiced : ∀ t ∈ told, t.2.1 = serverAt ∧ ∃ a ∈ answered, a.Voiced clientAt t.2.2 := by
    intro t ht
    rcases hone with rfl | ⟨hresponse, name, rfl⟩
    · cases ht
    · obtain rfl := List.mem_singleton.1 ht
      refine ⟨rfl, hvoices.resolve_left fun hsignal => ?_⟩
      rw [hsignal.spec.2.1] at hresponse
      cases hresponse
  have hclosed := closed_of_kept h.closed htells.kept
  -- a signal changes nothing of this; a response may be told, and then closes its conversation
  exact {
    simple := h.simple
    unobserved := hunobserved
    idle := hidle
    holds := fun p m hm => (hholds p m hm).elim (h.holds p m) .inl
    conversations := by
      intro key c' hc'
      obtain ⟨c, hc, hrequester⟩ := htells.kept key c' hc'
      rw [hrequester]
      exact h.conversations key c hc
    told := by
      rw [htells.responses]
      intro t ht
      rcases List.mem_append.1 ht with hbefore | hnew
      · exact h.told t hbefore
      · obtain ⟨hpeer, hbrought⟩ := hvoiced t hnew
        obtain ⟨c, hc, hname⟩ := (htells.closed t hnew).1
        obtain ⟨x, hx, hkey, hrequester⟩ := h.conversations _ c hc
        have htoken : t.2.2.token = x.request.token := congrArg ConversationKey.token hkey
        exact ⟨hpeer, ⟨x, hx, hrequester ▸ hname, htoken.symm⟩, hbrought⟩
    closed := by
      rw [htells.responses]
      intro t ht
      rcases List.mem_append.1 ht with hbefore | hnew
      · exact hclosed t hbefore
      · have hgone := (htells.closed t hnew).2
        rwa [(hvoiced t hnew).1] at hgone
    once := by
      rw [htells.responses, List.map_append]
      have hsingle : (told.map (·.2.2.token)).Nodup := by
        rcases hone with rfl | ⟨-, name, rfl⟩
        · exact List.nodup_nil
        · exact List.nodup_singleton _
      refine List.nodup_append.2 ⟨h.once, hsingle, fun token hbefore token' hnew htoken => ?_⟩
      -- whoever is told now had an open conversation, and was told of nothing before
      obtain ⟨t, ht, rfl⟩ := List.mem_map.1 hbefore
      obtain ⟨t', ht', rfl⟩ := List.mem_map.1 hnew
      obtain ⟨c, hc, -⟩ := (htells.closed t' ht').1
      rw [(hvoiced t' ht').1, ← htoken, h.closed t ht] at hc
      cases hc }

end ClientSound

/-! ## The server -/

/-- What holds of the server: it serves submitted requests, each once and remembered, and says
nothing but its answers to them and signals. -/
structure ServerSound (clientAt : Endpoint) (last : Instant) (exponent : Nat)
    (number : Token → MessageId) (submitted : List Submission) (served : List Serving)
    (answered : List Answer) (server : Engine) : Prop where
  unobserved : server.Unobserved
  now : server.now ≤ last
  lifetimes : last < server.incoming.exchangeLifetime ∧ last < server.incoming.nonLifetime
  maxExponent : server.transfers.maxExponent = exponent
  holds : ∀ p m, server.Holds p m → Engine.Voices answered p m
  asked : ∀ s ∈ served, s.peer = clientAt ∧ Numbered number submitted s.request
  remembered : ∀ s ∈ served, server.incoming.Remembers last ⟨s.peer, s.request.id⟩
  once : (served.map (·.request.token)).Nodup
  tasks : (answered.map Answer.toTask ++ server.delayed.map Delayed.task).Subperm
    (served.map Serving.task)
  called : server.called = served.filterMap (·.call.handler?)

namespace ServerSound

/-- A request is submitted, with a new token. -/
theorem submit {x : Submission}
    (h : ServerSound clientAt last exponent number submitted served answered server)
    (hnew : x.request.token ∉ submitted.map (·.request.token)) (id : MessageId) :
    ServerSound clientAt last exponent (Function.update number x.request.token id)
      (submitted ++ [x]) served answered server :=
  { h with asked := fun s hs => ⟨(h.asked s hs).1, (h.asked s hs).2.update hnew id⟩ }

/-- The handlers behave in another way. -/
theorem serves (h : ServerSound clientAt last exponent number submitted served answered server)
    (service : Service) :
    ServerSound clientAt last exponent number submitted served answered { server with service } :=
  { h with holds := fun p m hm => h.holds p m (hm.congr rfl rfl rfl) }

/-- What is answered was served. -/
theorem served_of_answered
    (h : ServerSound clientAt last exponent number submitted served answered server) {a : Answer}
    (ha : a ∈ answered) : ∃ s ∈ served, a.toTask = s.task := by
  have htask : a.toTask ∈ answered.map Answer.toTask ++ server.delayed.map Delayed.task :=
    List.mem_append_left _ (List.mem_map_of_mem ha)
  obtain ⟨s, hs, hsame⟩ := List.mem_map.1 (h.tasks.subset htask)
  exact ⟨s, hs, hsame.symm⟩

/-- Since a request is served once at most, it is answered once at most. -/
theorem answered_once
    (h : ServerSound clientAt last exponent number submitted served answered server) :
    (answered.map (·.request.token)).Nodup := by
  obtain ⟨tasks, hperm, hsublist⟩ := h.tasks
  have htokens : (tasks.map (·.request.token)).Nodup := by
    refine List.Nodup.sublist (hsublist.map _) ?_
    rw [List.map_map]
    exact h.once
  have hall := (hperm.map (·.request.token)).nodup_iff.1 htokens
  rw [List.map_append, List.map_map] at hall
  exact (List.nodup_append.1 hall).1

/-- What waits is a request that was served. -/
theorem asks (h : ServerSound clientAt last exponent number submitted served answered server)
    (hsimple : ∀ x ∈ submitted, IsSimple x.request) {d : Delayed} (hd : d ∈ server.delayed) :
    Engine.Asks d.request := by
  have hwaits : d.task ∈ answered.map Answer.toTask ++ server.delayed.map Delayed.task :=
    List.mem_append_right _ (List.mem_map_of_mem hd)
  obtain ⟨s, hs, htask⟩ := List.mem_map.1 (h.tasks.subset hwaits)
  -- a task names its request, so the request that waits is the one that was served
  have hrequest : s.request = d.request := congrArg Task.request htask
  rw [← hrequest]
  exact ((h.asked s hs).2.simple hsimple).asks

/-- Something happens at the server; if it serves a request, this is one of the client's. -/
theorem step {event : Engine.Event}
    (h : ServerSound clientAt last exponent number submitted served answered server)
    (hsimple : ∀ x ∈ submitted, IsSimple x.request)
    (hdistinct : (submitted.map (·.request.token)).Nodup) (hsuits : event.Suits last)
    (hasked : ∀ s ∈ server.servings event, s.peer = clientAt ∧ Numbered number submitted s.request)
    (hwhole : ∀ a ∈ server.answered event, IsWhole a exponent) :
    ServerSound clientAt last exponent number submitted (served ++ server.servings event)
      (answered ++ server.answered event) (server.step event) := by
  have hserves := Engine.Serves.step hsuits h.unobserved h.now (fun _ => h.lifetimes)
    (fun d hd => h.asks hsimple hd) fun a ha => h.maxExponent.symm ▸ (hwhole a ha).fits
  exact {
    unobserved := hserves.unobserved
    now := hserves.now
    lifetimes := by
      rw [hserves.lifetimes.1, hserves.lifetimes.2]
      exact h.lifetimes
    maxExponent := hserves.maxExponent.trans h.maxExponent
    holds := by
      intro p m hm
      rcases hserves.holds p m hm with hbefore | hsignal | ⟨a, ha, hvoiced⟩
      · refine (h.holds p m hbefore).imp_right ?_
        rintro ⟨a, ha, hvoiced⟩
        exact ⟨a, List.mem_append_left _ ha, hvoiced⟩
      · exact .inl hsignal
      · exact .inr ⟨a, List.mem_append_right _ ha, hvoiced⟩
    asked := fun s hs => (List.mem_append.1 hs).elim (h.asked s) (hasked s)
    remembered := by
      intro s hs
      rcases List.mem_append.1 hs with hbefore | hnew
      · exact hserves.remembers _ (h.remembered s hbefore)
      · exact hserves.known s hnew
    once := by
      rw [List.map_append]
      refine List.nodup_append.2 ⟨h.once, ?_, fun token hbefore token' hnew htoken => ?_⟩
      · rcases server.servings_cases event with hnone | ⟨s, hone⟩
        · rw [hnone]
          exact List.nodup_nil
        · rw [hone]
          exact List.nodup_singleton _
      -- the message for a request that was served before is remembered
      obtain ⟨s, hs, rfl⟩ := List.mem_map.1 hbefore
      obtain ⟨s', hs', rfl⟩ := List.mem_map.1 hnew
      obtain ⟨hpeer, hnumbered⟩ := h.asked s hs
      obtain ⟨hpeer', hnumbered'⟩ := hasked s' hs'
      have hsame : s.request = s'.request := hnumbered.unique hdistinct hnumbered' htoken
      refine hserves.fresh s' hs' ?_
      rw [← hsame, hpeer', ← hpeer]
      exact h.remembered s hs
    tasks := by
      -- old answers, new answers and waits: the last two come from what waited and what is served
      rw [List.map_append, List.map_append, List.append_assoc]
      have hrest := ((List.subperm_append_left (answered.map Answer.toTask)).2 hserves.tasks)
      refine hrest.trans ?_
      rw [← List.append_assoc]
      exact (List.subperm_append_right _).2 h.tasks
    called := by
      rw [hserves.called, h.called, List.filterMap_append] }

/-- A signal or a request of the client comes to the server. -/
theorem arrival {event : Engine.Event}
    (h : ServerSound clientAt last exponent number submitted served answered server)
    (hsimple : ∀ x ∈ submitted, IsSimple x.request)
    (hdistinct : (submitted.map (·.request.token)).Nodup) (hevent : event.Brings clientAt m)
    (hrequest : m.IsSignal ∨ Numbered number submitted m)
    (hwhole : ∀ a ∈ server.answered event, IsWhole a exponent) :
    ServerSound clientAt last exponent number submitted (served ++ server.servings event)
      (answered ++ server.answered event) (server.step event) := by
  have hplain : m.IsPlain := by
    intro hasks
    rcases hrequest with hsignal | hnumbered
    · simp [hsignal.spec.1] at hasks
    · exact (hnumbered.simple hsimple).plain
  obtain ⟨hsuits, hserved⟩ := Engine.serves_brought hplain h.unobserved hevent
  refine h.step hsimple hdistinct (hsuits last) (fun s hs => ?_) hwhole
  obtain ⟨hpeer, rfl, hasks⟩ := hserved s hs
  refine ⟨hpeer, hrequest.resolve_left fun hsignal => ?_⟩
  simp [hsignal.spec.1] at hasks

end ServerSound

end Coap.Network
