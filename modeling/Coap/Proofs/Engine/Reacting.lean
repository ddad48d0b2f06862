/-
# Reactions and answers

What a handler does about a request ends in a response, at once or when it has waited, or in
none.  The engine is followed here from the service's call to the response that leaves: to react
to a request is to answer it or to let it wait, and whoever has waited is answered in the end.
-/
import Coap.Proofs.Engine.Traffic
import Mathlib.Data.List.Perm.Subperm

namespace Coap

/-! ## Requests and their answers -/

/-- What is left of a reaction when all its waits are over. -/
def Reaction.eventual : Reaction → Reaction
  | .after _ reaction => reaction.eventual
  | reaction => reaction

/-- A request that was handed to the service, and what the service made of it. -/
structure Serving where
  peer : Endpoint
  request : Message
  call : Call

/-- A request, and what is to be done about it when all waits are over. -/
structure Task where
  peer : Endpoint
  request : Message
  reaction : Reaction

/-- The response to a request. -/
structure Answer extends Task where
  response : Message

/-- What is to be done about a request that was handed to the service. -/
def Serving.task (s : Serving) : Task := ⟨s.peer, s.request, s.call.reaction.eventual⟩

/-- What is to be done about a request that waits for its response. -/
def Delayed.task (d : Delayed) : Task := ⟨d.peer, d.request, d.reaction.eventual⟩

namespace Answer

variable {a : Answer} {peer : Endpoint} {m : Message}

/-- A message brings an answer to its peer: it is the response, under the token of the request
and with some type and ID. -/
def Voiced (a : Answer) (peer : Endpoint) (m : Message) : Prop :=
  peer = a.peer ∧ ∃ type id, m = { a.response with type, id, token := a.request.token }

/-- An answer is a response that fits a block. -/
def Fits (a : Answer) (exponent : Nat) : Prop :=
  a.response.isResponse = true ∧ a.response.payload.length ≤ Block.sizeOfExponent exponent

theorem Voiced.sameContent {m' : Message} (h : a.Voiced peer m) (hm : m.SameContent m') :
    a.Voiced peer m' := by
  obtain ⟨hpeer, _, _, rfl⟩ := h
  obtain ⟨type, id, rfl⟩ := hm
  exact ⟨hpeer, type, id, rfl⟩

/-- A response is addressed as the request demands. -/
theorem voiced_addressTo (h : a.response.isResponse = true) :
    a.Voiced a.peer (Engine.addressTo a.request a.response) := by
  have hfull : ¬ a.response.isEmpty := Message.not_isEmpty_of_isResponse h
  refine ⟨rfl, ?_⟩
  unfold Engine.addressTo Message.setToken Message.isEmpty
  simp only
  split
  all_goals
    rw [if_neg fun hempty => hfull hempty.1]
    exact ⟨_, _, rfl⟩

end Answer

namespace Engine

variable {e e' : Engine} {peer : Endpoint} {m request : Message}

/-! ## Reactions -/

/-- The response with the state of a resource, or with the failure to render it. -/
def stateResponse (request : Message) : Except Failure Representation → Message
  | .error failure => failure.respond request
  | .ok r =>
    match (stateReply request r).fault? with
    | none => (stateReply request r).message
    | some fault => (Failure.internal fault.message).respond request

/-- The response that a reaction makes, unless it has to wait first. -/
def reply? (e : Engine) (request : Message) : Reaction → Option Message
  | .respond response => some response
  | .fail failure => some (failure.respond request)
  | .render id => some (stateResponse request (e.subscriptions.render id request.accept?).1)
  | .abandon => some (abandoned.respond request)
  | .hold => none
  | .after delay reaction =>
    if Instant.tick (e.now + delay) ≤ e.now then e.reply? request reaction else none

/-- The wait that a reaction begins with, unless it takes no time. -/
def wait? (e : Engine) (peer : Endpoint) (request : Message) : Reaction → Option Delayed
  | .after delay reaction =>
    if Instant.tick (e.now + delay) ≤ e.now then e.wait? peer request reaction
    else some ⟨Instant.tick (e.now + delay), peer, request, reaction⟩
  | _ => none

/-- The answer that a reaction makes at once. -/
def answer? (e : Engine) (peer : Endpoint) (request : Message) (reaction : Reaction) :
    Option Answer :=
  (e.reply? request reaction).map fun response =>
    { peer, request, reaction := reaction.eventual, response }

theorem answerState_eq (e : Engine) (peer : Endpoint) (request : Message) (id : ResourceId) :
    e.answerState peer request id =
      { e with subscriptions := (e.subscriptions.render id request.accept?).2 }.answer peer request
        (stateResponse request (e.subscriptions.render id request.accept?).1) := by
  unfold answerState stateResponse
  simp only
  cases (e.subscriptions.render id request.accept?).1 with
  | error failure => rfl
  | ok r =>
    simp only
    cases (stateReply request r).fault? <;> rfl

/-- A request is answered, or waits, or is left: not two of these. -/
theorem answer?_subperm (e : Engine) (peer : Endpoint) (request : Message) (reaction : Reaction) :
    ((e.answer? peer request reaction).toList.map Answer.toTask ++
      (e.wait? peer request reaction).toList.map Delayed.task).Subperm
        [⟨peer, request, reaction.eventual⟩] := by
  unfold answer?
  -- `eventual` takes off the waits one by one, as the engine does
  induction reaction with
  | respond | fail | render | abandon => exact List.Subperm.refl _
  | hold => exact List.nil_subperm
  | after delay reaction ih =>
    unfold reply? wait?
    split
    · exact ih
    · exact List.Subperm.refl _

/-- A response is the one its reaction makes; for a resource, it is of some state. -/
def Made (a : Answer) : Prop :=
  match a.reaction with
  | .respond response => a.response = response
  | .fail failure => a.response = failure.respond a.request
  | .render _ => ∃ state, a.response = stateResponse a.request state
  | .abandon => a.response = abandoned.respond a.request
  | .hold | .after _ _ => False

/-- An answer is what its reaction makes, however long that has to wait. -/
theorem made_answer? {a : Answer} {reaction : Reaction}
    (h : a ∈ e.answer? peer request reaction) : Made a := by
  unfold answer? at h
  obtain ⟨response, hreply, rfl⟩ := Option.map_eq_some_iff.1 h
  clear h
  induction reaction with
  | respond | fail | abandon => exact (Option.some.inj hreply).symm
  | render id => exact ⟨_, (Option.some.inj hreply).symm⟩
  | hold => cases hreply
  | after delay reaction ih =>
    unfold reply? at hreply
    split at hreply
    · exact ih hreply
    · cases hreply

/-- A request of the kind that is answered in one piece and makes no observer. -/
def Asks (request : Message) : Prop := request.isRequest = true ∧ request.IsPlain

/-- The answers to requests, beside signals. -/
def Voices (answers : List Answer) (peer : Endpoint) (m : Message) : Prop :=
  m.IsSignal ∨ ∃ a ∈ answers, a.Voiced peer m

variable {last : Instant}

theorem reply?_congr (hnow : e'.now = e.now) (hsubscriptions : e'.subscriptions = e.subscriptions)
    (request : Message) (reaction : Reaction) :
    e'.reply? request reaction = e.reply? request reaction := by
  induction reaction with
  | render id =>
    unfold reply?
    rw [hsubscriptions]
  | after delay reaction ih =>
    unfold reply?
    rw [hnow, ih]
  | _ => rfl

theorem wait?_congr (hnow : e'.now = e.now) (peer : Endpoint) (request : Message)
    (reaction : Reaction) : e'.wait? peer request reaction = e.wait? peer request reaction := by
  induction reaction with
  | after delay reaction ih =>
    unfold wait?
    rw [hnow, ih]
  | _ => rfl

theorem answer?_congr (hnow : e'.now = e.now)
    (hsubscriptions : e'.subscriptions = e.subscriptions) (peer : Endpoint) (request : Message)
    (reaction : Reaction) : e'.answer? peer request reaction = e.answer? peer request reaction := by
  rw [answer?, answer?, reply?_congr hnow hsubscriptions]

namespace Acts

/-- A request is answered. -/
theorem answer (e : Engine) {a : Answer} (hasks : Asks a.request)
    (hfits : a.Fits e.transfers.maxExponent) :
    Acts (Voices [a]) last [] [] e (e.answer a.peer a.request a.response) := by
  obtain ⟨hresponse, hshort⟩ := hfits
  obtain ⟨-, hblock2, hobserved⟩ := hasks.2 hasks.1
  have hvoiced := Answer.voiced_addressTo hresponse
  refine sendThrough e ?_ ?_ fun m' hm' => .inr ⟨a, List.mem_singleton_self a, ?_⟩
  · intro request hrequest
    obtain rfl := Option.some.inj hrequest
    simp [Subscriptions.asksToObserve, hobserved]
  · rintro ⟨-, -, hlong⟩
    obtain ⟨-, _, _, hm⟩ := hvoiced
    simp only [Transfers.firstExponent, Option.bind_some, hblock2, hm] at hlong
    exact absurd hlong (Nat.not_lt_of_le hshort)
  · exact hvoiced.sameContent hm'

/-- **What a reaction does**: it answers the request, or lets it wait. -/
theorem react (e : Engine) (peer : Endpoint) (hasks : Asks request) (reaction : Reaction)
    (hfits : ∀ a ∈ (e.answer? peer request reaction), a.Fits e.transfers.maxExponent) :
    Acts (Voices (e.answer? peer request reaction).toList) last
      (e.wait? peer request reaction).toList [] e (e.react peer request reaction) := by
  induction reaction with
  | respond response => exact answer e (a := ⟨⟨peer, request, _⟩, _⟩) hasks (hfits _ rfl)
  | fail failure => exact answer e (a := ⟨⟨peer, request, _⟩, _⟩) hasks (hfits _ rfl)
  | abandon => exact answer e (a := ⟨⟨peer, request, _⟩, _⟩) hasks (hfits _ rfl)
  | render id =>
    have hrendered : Acts (Voices (e.answer? peer request (.render id)).toList) last [] [] e
        { e with subscriptions := (e.subscriptions.render id request.accept?).2 } := by
      refine subscriptions e _ fun hnone key => ?_
      rw [Subscriptions.entries_render]
      exact hnone key
    unfold Engine.react
    rw [answerState_eq]
    exact hrendered.trans (answer _ (a := ⟨⟨peer, request, _⟩, _⟩) hasks (hfits _ rfl))
  | hold => exact refl e
  | after delay reaction ih =>
    unfold answer? reply? at hfits ⊢
    unfold Engine.react wait?
    simp only
    split
    · next hsoon =>
      rw [if_pos hsoon] at hfits
      exact ih hfits
    · exact waiting e _

/-- A request is handed to the service. -/
theorem serve (last : Instant) (e : Engine) (peer : Endpoint) (hasks : Asks request)
    (hfits : ∀ a ∈ e.answer? peer request (e.service { message := request, peer }).reaction,
      a.Fits e.transfers.maxExponent) :
    let call := e.service { message := request, peer }
    Acts (Voices (e.answer? peer request call.reaction).toList) last
      (e.wait? peer request call.reaction).toList call.handler?.toList e
      (e.serve peer request) := by
  intro call
  unfold Engine.serve
  simp only
  cases call.handler? with
  | none =>
    simp only
    exact react e peer hasks call.reaction hfits
  | some handler =>
    simp only
    let noted := e.note (.called handler)
    have hnow : noted.now = e.now := rfl
    have hsubscriptions : noted.subscriptions = e.subscriptions := rfl
    have hanswer := answer?_congr hnow hsubscriptions peer request call.reaction
    have hwait := wait?_congr hnow peer request call.reaction
    have hreact : Acts (Voices (noted.answer? peer request call.reaction).toList) last
        (noted.wait? peer request call.reaction).toList [] noted
        (noted.react peer request call.reaction) :=
      react noted peer hasks call.reaction (hanswer ▸ hfits)
    rw [hanswer, hwait] at hreact
    exact (calling e handler).trans hreact

/-- A message that is no request is passed on, rejected or dropped. -/
theorem accept_of_not_request (h : ¬ m.isRequest = true) (e : Engine) (peer : Endpoint) :
    Acts (Voices []) last [] [] e (e.accept peer m) := by
  rw [accept_eq, if_neg h]
  split
  · exact deliver (fun _ _ hsignal => .inl hsignal) e peer m
  · exact refl e

end Acts

/-! ## Requests that wait -/

/-- The answers that the given requests get when their waits are over. -/
def answers (e : Engine) : List Delayed → List Answer
  | [] => []
  | d :: rest =>
    (e.answer? d.peer d.request d.reaction).toList ++
      (e.react d.peer d.request d.reaction).answers rest

theorem Acts.resume (last : Instant) (due : List Delayed)
    (hasks : ∀ d ∈ due, Asks d.request) (e : Engine)
    (hfits : ∀ a ∈ e.answers due, a.Fits e.transfers.maxExponent) :
    ∃ waits, Acts (Voices (e.answers due)) last waits [] e (e.resume due) ∧
      ((e.answers due).map Answer.toTask ++ waits.map Delayed.task).Subperm
        (due.map Delayed.task) := by
  induction due generalizing e with
  | nil => exact ⟨[], refl e, List.nil_subperm⟩
  | cons d rest ih =>
    have hreact : Acts _ last _ _ _ _ := react e d.peer (hasks d List.mem_cons_self) d.reaction
      fun a ha => hfits a (List.mem_append_left _ (Option.mem_toList.2 ha))
    have hbound := hreact.maxExponent
    obtain ⟨waits, hrest, hsubperm⟩ := ih (fun d' hd' => hasks d' (List.mem_cons_of_mem _ hd'))
      (e.react d.peer d.request d.reaction) fun a ha => by
        rw [hbound]
        exact hfits a (List.mem_append_right _ ha)
    refine ⟨(e.wait? d.peer d.request d.reaction).toList ++ waits, ?_, ?_⟩
    · refine (hreact.mono ?_).trans (hrest.mono ?_)
      · rintro p m (hsignal | ⟨a, ha, hvoiced⟩)
        · exact .inr (.inl hsignal)
        · exact .inr (.inr ⟨a, List.mem_append_left _ ha, hvoiced⟩)
      · rintro p m (hsignal | ⟨a, ha, hvoiced⟩)
        · exact .inr (.inl hsignal)
        · exact .inr (.inr ⟨a, List.mem_append_right _ ha, hvoiced⟩)
    · -- the first request and the others part
      have hone := answer?_subperm e d.peer d.request d.reaction
      have hall := hone.append hsubperm
      refine ((List.Perm.subperm ?_).trans hall)
      rw [answers]
      simp only [List.map_append, List.append_assoc]
      exact (List.perm_append_comm_assoc _ _ _).append_left _

end Engine

end Coap
