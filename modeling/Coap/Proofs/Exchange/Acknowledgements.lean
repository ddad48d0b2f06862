/-
# One acknowledgement for each request

Whoever acknowledges a request first decides how it is acknowledged: by empty
acknowledgements only, or by one and the same response.  A response can travel on the
acknowledgement exactly as long as nothing else has been sent as one.
-/
import Coap.Proofs.Exchange.Answers

namespace Coap.Incoming

variable {s : Incoming} {t : Instant} {key : MessageKey} {event : Event} {history : History}

/-- No message with this key is let through in the history. -/
def NoneOpens (s : Incoming) (key : MessageKey) : History → Prop
  | [] => True
  | (t, event) :: rest => ¬ s.Opens t key event ∧ NoneOpens (s.step t event) key rest

/-- The acknowledgements that a request with this key gets in a history. -/
def answers (s : Incoming) (key : MessageKey) (history : History) : List Message :=
  s.acks Event.answersRequest key history

/-! ## Runs -/

theorem sound_run (hs : s.Sound) : (s.run history).Sound := by
  induction history generalizing s with
  | nil => exact hs
  | cons e rest ih => exact ih (sound_step hs)

/-- As long as the record lives, no message with its key is new. -/
theorem not_opens_of_lt {r : IncomingRecord} (hr : s.records.get? key = some r)
    (hlt : t < r.expires) : ¬ s.Opens t key event := by
  intro h
  cases event with
  | receive peer m => exact (opens_receive_iff.mp h).2.2 ⟨r, hr, hlt⟩
  | _ => exact h

/-- While the record of a request lives, nothing else is let through under its key. -/
theorem noneOpens_of_lt {r : IncomingRecord} (hs : s.Sound) (hr : s.records.get? key = some r)
    (hlive : ∀ e ∈ history, e.1 < r.expires) : s.NoneOpens key history := by
  induction history generalizing s r with
  | nil => trivial
  | cons e rest ih =>
    obtain ⟨t, event⟩ := e
    obtain ⟨hlt, hrest⟩ := List.forall_mem_cons.mp hlive
    have hnot : ¬ s.Opens t key event := not_opens_of_lt hr hlt
    refine ⟨hnot, ?_⟩
    obtain ⟨σ, -, hr' | ⟨-, hover⟩⟩ := answers_step hs hr hnot
    · exact ih (sound_step hs) hr' hrest
    · exact absurd hover (Nat.not_le_of_lt hlt)

theorem get?_run_eq_none (hr : s.records.get? key = none) (hnone : s.NoneOpens key history) :
    (s.run history).records.get? key = none := by
  induction history generalizing s with
  | nil => exact hr
  | cons e rest ih => exact ih (get?_step_eq_none hr hnone.1) hnone.2

/-- **The record of a request in a run**: it goes on as `Answers` says, or it was dropped after
it had expired. -/
theorem answers_run {r : IncomingRecord} (hs : s.Sound) (hr : s.records.get? key = some r)
    (hnone : s.NoneOpens key history) :
    (∃ σ, Answers key (fun m => ∃ t, (t, .send key.peer m) ∈ history) r.state
        (s.answers key history) σ ∧ (s.run history).records.get? key = some ⟨σ, r.expires⟩) ∨
      (s.run history).records.get? key = none ∧ ∃ e ∈ history, r.expires ≤ e.1 := by
  induction history generalizing s r with
  | nil => exact .inl ⟨r.state, .done _, hr⟩
  | cons e rest ih =>
    obtain ⟨t, event⟩ := e
    obtain ⟨hnot, hrest⟩ := hnone
    obtain ⟨σ, hfirst, hr' | ⟨hr', hover⟩⟩ := answers_step hs hr hnot
    · obtain ⟨σ', hlater, hend⟩ | ⟨hend, e, he, hover⟩ := ih (sound_step hs) hr' hrest
      · refine .inl ⟨σ', ?_, hend⟩
        refine (hfirst.mono fun m hm => ?_).trans (hlater.mono fun m hm => ?_)
        · exact ⟨t, hm ▸ List.mem_cons_self ..⟩
        · obtain ⟨u, hu⟩ := hm
          exact ⟨u, List.mem_cons_of_mem _ hu⟩
      · exact .inr ⟨hend, e, List.mem_cons_of_mem _ he, hover⟩
    · have hend : ((s.step t event).run rest).records.get? key = none := get?_run_eq_none hr' hrest
      exact .inr ⟨hend, _, List.mem_cons_self .., hover⟩

/-! ## Requests -/

/-- After the history `before` the peer of the key sends a confirmable request with its ID, and
that is let through. -/
structure Accepts (s : Incoming) (before : History) (t : Instant) (key : MessageKey)
    (request : Message) : Prop where
  asks : Asks request
  id : request.id = key.id
  new : (s.run before).forwards t (.receive key.peer request)

variable {before after : History} {request : Message}

/-- The state in which a request has just been let through. -/
def accepted (s : Incoming) (before : History) (t : Instant) (key : MessageKey)
    (request : Message) : Incoming :=
  (s.run before).step t (.receive key.peer request)

theorem Accepts.opens (h : s.Accepts before t key request) :
    (s.run before).Opens t key (.receive key.peer request) :=
  ⟨by rw [h.id], h.asks.watched, h.new⟩

/-- The record of the request waits for a response, for one lifetime. -/
theorem Accepts.get? (h : s.Accepts before t key request) :
    (s.accepted before t key request).records.get? key =
      some ⟨.waiting, t + (s.run before).exchangeLifetime⟩ := by
  obtain ⟨⟨state, expires⟩, hr, hwaiting, hexpires⟩ := get?_receive_of_opens h.opens
  rw [accepted, step, hr, ← hexpires h.asks, ← hwaiting.mpr h.asks]

theorem run_append (s : Incoming) (h h' : History) : s.run (h ++ h') = (s.run h).run h' := by
  induction h generalizing s with
  | nil => rfl
  | cons e rest ih => exact ih _

/-- A record that waits is that of a request, and it was there before or the request was let
through. -/
theorem get?_of_step_waiting {expires : Instant} (hs : s.Sound)
    (hr : (s.step t event).records.get? key = some ⟨.waiting, expires⟩) :
    (s.records.get? key = some ⟨.waiting, expires⟩ ∧ ¬ s.Opens t key event) ∨
      ∃ request, event = .receive key.peer request ∧ s.Accepts [] t key request := by
  by_cases hopens : s.Opens t key event
  · right
    cases event with
    | receive peer m =>
      obtain ⟨r, hr', hwaiting, -⟩ := get?_receive_of_opens hopens
      obtain rfl : r = ⟨.waiting, expires⟩ := Option.some.inj (hr'.symm.trans hr)
      obtain ⟨rfl, -, hnew⟩ := hopens
      exact ⟨m, rfl, hwaiting.mp rfl, rfl, hnew⟩
    | _ => exact hopens.elim
  · left
    refine ⟨?_, hopens⟩
    cases hold : s.records.get? key with
    | none =>
      rw [get?_step_eq_none hold hopens] at hr
      cases hr
    | some r =>
      obtain ⟨σ, hanswers, hr' | ⟨hr', -⟩⟩ := answers_step hs hold hopens
      · rw [hr, Option.some.injEq] at hr'
        cases hr'
        rw [← hanswers.eq_waiting rfl]
      · rw [hr'] at hr
        cases hr

/-- If a record waits after a history, the last message with its key that was let through was a
request. -/
theorem exists_accepts_of_waiting {expires : Instant} (hs : s.Sound)
    (hr : (s.run history).records.get? key = some ⟨.waiting, expires⟩) :
    (s.records.get? key = some ⟨.waiting, expires⟩ ∧ s.NoneOpens key history) ∨
      ∃ before t request after, history = before ++ (t, .receive key.peer request) :: after ∧
        s.Accepts before t key request ∧ (s.accepted before t key request).NoneOpens key after := by
  induction history generalizing s with
  | nil => exact .inl ⟨hr, trivial⟩
  | cons e rest ih =>
    obtain ⟨t, event⟩ := e
    obtain ⟨hmid, hnone⟩ | ⟨before, u, request, after, rfl, haccepts, hnone⟩ :=
      ih (sound_step hs) hr
    · obtain ⟨hfirst, hnot⟩ | ⟨request, rfl, haccepts⟩ := get?_of_step_waiting hs hmid
      · exact .inl ⟨hfirst, hnot, hnone⟩
      · exact .inr ⟨[], t, request, rest, rfl, haccepts, hnone⟩
    · exact .inr ⟨(t, event) :: before, u, request, after, rfl,
        ⟨haccepts.asks, haccepts.id, haccepts.new⟩, hnone⟩

theorem exchangeLifetime_run (s : Incoming) (history : History) :
    (s.run history).exchangeLifetime = s.exchangeLifetime := by
  induction history generalizing s with
  | nil => rfl
  | cons e rest ih => exact (ih _).trans (sameLifetimes_step s e.1 e.2).1

/-- The record of a request that was let through, and how it was acknowledged since. -/
theorem answers_accepted (hs : s.Sound) (haccepts : s.Accepts before t key request)
    (hnone : (s.accepted before t key request).NoneOpens key after) :
    (∃ σ, Answers key (fun m => ∃ t, (t, .send key.peer m) ∈ after) .waiting
        ((s.accepted before t key request).answers key after) σ ∧
      ((s.accepted before t key request).run after).records.get? key =
        some ⟨σ, t + s.exchangeLifetime⟩) ∨
      ((s.accepted before t key request).run after).records.get? key = none ∧
        ∃ e ∈ after, t + s.exchangeLifetime ≤ e.1 := by
  have hget := haccepts.get?
  rw [exchangeLifetime_run] at hget
  exact answers_run (sound_step (sound_run hs)) hget hnone

/-! ## The law -/

/-- The last message with this key that was let through is a request, it has not been
acknowledged, and its record is not gone. -/
def Awaits (s : Incoming) (key : MessageKey) (history : History) : Prop :=
  ∃ before t request after, history = before ++ (t, .receive key.peer request) :: after ∧
    s.Accepts before t key request ∧ (s.accepted before t key request).NoneOpens key after ∧
    (s.accepted before t key request).answers key after = [] ∧
    (s.run history).records.get? key ≠ none

theorem awaits_iff (c : Config) : (start c).Awaits key history ↔
    (((start c).run history).records.get? key).map (·.state) = some .waiting := by
  have hs := sound_start c
  constructor
  · rintro ⟨before, t, request, after, rfl, haccepts, hnone, hgiven, hkept⟩
    rw [run_append] at hkept ⊢
    obtain ⟨σ, hanswers, hr⟩ | ⟨hgone, -⟩ := answers_accepted hs haccepts hnone
    · obtain ⟨rfl, -⟩ | ⟨-, hne, -⟩ | ⟨r, -, hne, -⟩ := hanswers.of_waiting
      · exact congrArg (Option.map (·.state)) hr
      · exact absurd hgiven hne
      · exact absurd hgiven hne
    · exact absurd hgone hkept
  · intro hwaiting
    obtain ⟨⟨_, expires⟩, hr, rfl⟩ := Option.map_eq_some_iff.mp hwaiting
    obtain ⟨hstart, -⟩ | ⟨before, t, request, after, rfl, haccepts, hnone⟩ :=
      exists_accepts_of_waiting hs hr
    · cases hstart
    · refine ⟨before, t, request, after, rfl, haccepts, hnone, ?_, by simp [hr]⟩
      rw [run_append] at hr
      obtain ⟨σ, hanswers, hr'⟩ | ⟨hgone, -⟩ := answers_accepted hs haccepts hnone
      · rw [show ((start c).accepted before t key request).run after = _ from rfl] at hr'
        obtain ⟨-, hgiven⟩ | ⟨rfl, -⟩ | ⟨r, rfl, -⟩ := hanswers.of_waiting
        · exact hgiven
        · exact absurd (hr.symm.trans hr') (by simp)
        · exact absurd (hr.symm.trans hr') (by simp)
      · exact absurd (hr.symm.trans hgone) (by simp)

/-- The acknowledgement of a duplicate: the response if there is one, and else an empty one. -/
def acknowledgement (id : MessageId) : AckState → Message
  | .responded response => response
  | _ => .emptyAck id

theorem receive_duplicate {now : Instant} {copy : Message} {r : IncomingRecord}
    (hcopy : Asks copy) (hid : copy.id = key.id) (hlive : s.live? now key = some r)
    (hstate : r.state ≠ .unasked) :
    (s.receive now key.peer copy).1 = .consume ∧
      s.output now (.receive key.peer copy) = [(key.peer, acknowledgement key.id r.state)] := by
  obtain ⟨state, expires⟩ := r
  rw [output, receive_of_asks hcopy, hid]
  simp only [receiveRequest, hlive]
  cases state with
  | unasked => exact absurd rfl hstate
  | _ => exact ⟨rfl, rfl⟩

/-- The first acknowledgement with a response in it is the one that duplicates get. -/
theorem acknowledgement_eq {handed : Message → Prop} {given : List Message} {σ : AckState}
    (h : Answers key handed .waiting given σ) : σ ≠ .unasked ∧
      acknowledgement key.id σ = (given.find? fun a => !a.isEmpty).getD (.emptyAck key.id) := by
  obtain ⟨rfl, rfl⟩ | ⟨rfl, -, hall⟩ | ⟨r, rfl, hne, -, hfull, hall⟩ := h.of_waiting
  · exact ⟨by simp, rfl⟩
  · have hnone : given.find? (fun a => !a.isEmpty) = none := by
      rw [List.find?_eq_none]
      intro a ha
      have hempty : (Message.emptyAck key.id).isEmpty = true := rfl
      simp [hall a ha, hempty]
    rw [hnone]
    exact ⟨by simp, rfl⟩
  · obtain ⟨a, rest, rfl⟩ := List.exists_cons_of_ne_nil hne
    have hfirst : a = r := hall a (List.mem_cons_self ..)
    rw [List.find?_cons_of_pos (by simpa [hfirst] using hfull), hfirst]
    exact ⟨by simp, rfl⟩

/-- **One acknowledgement for each request.**  While the record of a request lives, it is
acknowledged by empty acknowledgements only or by one and the same response that was handed in,
and every duplicate of it gets exactly one acknowledgement: this response, or an empty one.  At
any time, a response goes out as an acknowledgement exactly if the request awaits it, and is made
a confirmable message otherwise. -/
theorem acknowledged_one_way (c : Config) (key : MessageKey) :
    (∀ before t request after, (start c).Accepts before t key request →
      (∀ e ∈ after, e.1 < t + c.exchangeLifetime) →
      let s := (start c).accepted before t key request
      let given := s.answers key after
      ((∀ a ∈ given, a = .emptyAck key.id) ∨
        ∃ r, (∃ u, (u, .send key.peer r) ∈ after) ∧ ¬ r.isEmpty ∧ ∀ a ∈ given, a = r) ∧
      ∀ now copy, now < t + c.exchangeLifetime → Asks copy → copy.id = key.id →
        ((s.run after).receive now key.peer copy).1 = .consume ∧
        (s.run after).output now (.receive key.peer copy) =
          [(key.peer, (given.find? fun a => !a.isEmpty).getD (.emptyAck key.id))]) ∧
    ∀ history response, response.type = .acknowledgement → response.id = key.id →
      ¬ response.isEmpty →
      let sent := (((start c).run history).send key.peer response).1
      ((start c).Awaits key history → sent = response) ∧
        (¬ (start c).Awaits key history → sent = { response with type := .confirmable }) := by
  have hs := sound_start c
  constructor
  · intro before t request after haccepts hlive s given
    have hget := haccepts.get?
    rw [exchangeLifetime_run] at hget
    have hnone := noneOpens_of_lt (sound_step (sound_run hs)) hget hlive
    obtain ⟨σ, hanswers, hr⟩ | ⟨-, e, he, hover⟩ := answers_accepted hs haccepts hnone
    · refine ⟨?_, fun now copy hnow hcopy hid => ?_⟩
      · obtain ⟨-, hgiven⟩ | ⟨-, -, hall⟩ | ⟨r, -, -, hhanded, hfull, hall⟩ := hanswers.of_waiting
        · refine .inl fun a ha => ?_
          rw [show given = [] from hgiven] at ha
          cases ha
        · exact .inl hall
        · exact .inr ⟨r, hhanded, hfull, hall⟩
      · obtain ⟨hasked, hack⟩ := acknowledgement_eq hanswers
        rw [← hack]
        exact receive_duplicate hcopy hid (live?_eq_some_iff.mpr ⟨hr, hnow⟩) hasked
    · exact absurd (hlive e he) (Nat.not_lt_of_le hover)
  · intro history response htype hid hfull sent
    have hsent : sent = if (((start c).run history).records.get? key).map (·.state) = some .waiting
        then response else { response with type := .confirmable } := by
      have hkey : (⟨key.peer, response.id⟩ : MessageKey) = key := by rw [hid]
      rw [← hkey]
      exact send_eq htype hfull
    rw [hsent, awaits_iff]
    exact ⟨fun h => if_pos h, fun h => if_neg h⟩

/-- A response that comes in time travels on the acknowledgement, and a duplicate gets it again;
a second response does not, although it carries the same ID. -/
theorem acknowledged_one_way_by_response :
    let key : MessageKey := ⟨⟨1⟩, 5⟩
    let request : Message := { type := .confirmable, code := .request .get, id := 5 }
    let response : Message := { type := .acknowledgement, code := .response .content, id := 5 }
    let other : Message := { type := .acknowledgement, code := .response .notFound, id := 5 }
    let after : History :=
      [(1, .send key.peer response), (2, .receive key.peer request), (3, .sweep)]
    let s := (start .standard).accepted [] 0 key request
    s.answers key after = [response, response] ∧
      (s.run after).output 4 (.receive key.peer request) = [(key.peer, response)] ∧
      ((s.run after).send key.peer other).1 = { other with type := .confirmable } := by
  intro key request response other after s
  have haccepts : (start .standard).Accepts [] 0 key request :=
    ⟨⟨rfl, by decide⟩, rfl, by decide +kernel⟩
  have hlive : ∀ e ∈ after, e.1 < 0 + Config.standard.exchangeLifetime := by decide +kernel
  have hanswers : s.answers key after = [response, response] := by decide +kernel
  obtain ⟨hfirst, hsend⟩ := acknowledged_one_way .standard key
  obtain ⟨-, hcopies⟩ := hfirst [] 0 request after haccepts hlive
  have hcopy := (hcopies 4 request (by decide +kernel) haccepts.asks rfl).2
  have hnot : ¬ (start .standard).Awaits key ((0, .receive key.peer request) :: after) := by
    rw [awaits_iff]
    decide +kernel
  have hother := (hsend _ other rfl rfl (by decide)).2 hnot
  rw [run] at hother
  rw [hanswers] at hcopy
  exact ⟨hanswers, hcopy, hother⟩

/-- An empty acknowledgement that is handed in passes even after a response has been sent as the
acknowledgement.  If it is counted, a request is acknowledged in both ways. -/
theorem acknowledged_both_ways :
    let key : MessageKey := ⟨⟨1⟩, 5⟩
    let request : Message := { type := .confirmable, code := .request .get, id := 5 }
    let response : Message := { type := .acknowledgement, code := .response .content, id := 5 }
    let after : History := [(1, .send key.peer response), (2, .send key.peer (.emptyAck 5))]
    let given := ((start .standard).accepted [] 0 key request).acks (fun _ => true) key after
    (start .standard).Accepts [] 0 key request ∧
      (∀ e ∈ after, e.1 < 0 + Config.standard.exchangeLifetime) ∧
      ¬ ((∀ a ∈ given, a = .emptyAck key.id) ∨ ∃ r, ¬ r.isEmpty ∧ ∀ a ∈ given, a = r) := by
  intro key request response after given
  have hgiven : given = [response, .emptyAck 5] := by decide +kernel
  refine ⟨⟨⟨rfl, by decide⟩, rfl, by decide +kernel⟩, by decide +kernel, ?_⟩
  rw [hgiven]
  rintro (hempty | ⟨r, hfull, hall⟩)
  · exact absurd (hempty response (by simp)) (by decide)
  · have hr : .emptyAck 5 = r := hall _ (by simp)
    exact hfull (hr ▸ rfl)

end Coap.Incoming
