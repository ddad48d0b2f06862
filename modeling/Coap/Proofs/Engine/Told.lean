/-
# The responses requesters are told of

A requester is told of a response when one arrives for its open conversation.  A response that
is no notification closes the conversation, so the requester is told of one at most.  Nothing
else that happens to a node tells anybody of a response or opens a conversation, but the
submission of a request.
-/
import Coap.Proofs.Engine.Served

namespace Coap.Engine

variable {e e' e'' : Engine} {peer : Endpoint} {m : Message}
  {told : List (String × Endpoint × Message)}

/-! ## Steps that tell of nothing -/

theorem Mute.repeatDue (now : Instant) (e : Engine) : Mute e (repeatDue now e) :=
  .of_quiet ((Quiet.layers e _ _ _ _ _).trans (Quiet.frame.transmitAll _ _))

theorem Mute.sweepDue (now : Instant) (e : Engine) : Mute e (sweepDue now e) := by
  unfold Engine.sweepDue
  split
  · exact .of_quiet ((Quiet.layers e _ _ _ _ _).trans (Quiet.frame.transmitAll _ _))
  · exact .refl e

/-- Everything that is due at a time tells nobody of a response. -/
theorem Mute.fire (now : Instant) (e : Engine) : Mute e (fire now e) := by
  have hclock : Mute e { e with now } := .of_same rfl rfl
  have hrepeated := hclock.trans (.repeatDue now _)
  have hconcluded := hrepeated.trans
    (Clerical.concludeAll (e.outgoing.fire e.outboxOpen now).1.events _).toMute
  have hresumed := (hconcluded.trans (.sweepDue now _)).trans (.of_quiet (.resumeDue _ now))
  rw [fire_eq]
  exact (hresumed.trans (Clerical.expireDue now _).toMute).trans (Clerical.settle _).toMute

theorem Mute.step {event : Event} (h : event.IsInner) (e : Engine) : Mute e (e.step event) := by
  cases event with
  | submit | handle | absorb => exact absurd h id
  | cancel key => exact (Clerical.cancel e key).toMute
  | conclude event => exact (Clerical.conclude e event).toMute
  | repeatDue now => exact .repeatDue now e
  | sweepDue now => exact .sweepDue now e
  | resumeDue now => exact .of_quiet (.resumeDue e now)
  | expire key number => exact (Clerical.expire e key number).toMute
  | settle => exact (Clerical.settle e).toMute
  | announce id event => exact .of_quiet (.announce e id event)
  | setState id state => exact .of_same rfl rfl
  | closeOutbox => exact .of_same rfl rfl
  | serve service => exact .of_same rfl rfl
  | fire now => exact .fire now e
  | pass now => exact .of_same rfl rfl

/-! ## Responses -/

/-- Requesters are told of responses, each by a conversation that is closed then, and no
conversation is opened. -/
structure Tells (told : List (String × Endpoint × Message)) (e e' : Engine) : Prop where
  responses : e'.responses = e.responses ++ told
  kept : ∀ key c', e'.conversations.get? key = some c' →
    ∃ c, e.conversations.get? key = some c ∧ c'.requester = c.requester
  closed : ∀ x ∈ told, (∃ c, e.conversations.get? ⟨x.2.1, x.2.2.token⟩ = some c ∧
    c.requester.name = x.1) ∧ e'.conversations.get? ⟨x.2.1, x.2.2.token⟩ = none

/-- A requester is told of a response, unless it waits for one result and has it. -/
theorem responses_report (e : Engine) (key : ConversationKey) (c : Conversation) (m : Message) :
    ∃ told, (e.reportResponse key c m).responses = e.responses ++ told ∧
      (told = [] ∨ told = [(c.requester.name, key.peer, m)]) := by
  unfold reportResponse report
  split
  · split
    · exact ⟨[], (List.append_nil _).symm, .inl rfl⟩
    · exact ⟨_, responses_note e _, .inr rfl⟩
  · exact ⟨_, responses_note e _, .inr rfl⟩

namespace Tells

theorem of_mute (h : Mute e e') : Tells [] e e' where
  responses := by rw [h.responses, List.append_nil]
  kept := h.kept
  closed _ hx := by cases hx

/-- Something happens before and something afterwards that tells of nothing. -/
theorem between {e₀ e₁ : Engine} (hbefore : Mute e e₀) (h : Tells told e₀ e₁)
    (hafter : Mute e₁ e') : Tells told e e' where
  responses := by rw [hafter.responses, h.responses, hbefore.responses]
  kept := by
    intro key c₃ hc₃
    obtain ⟨c₂, hc₂, h₃⟩ := hafter.kept key c₃ hc₃
    obtain ⟨c₁, hc₁, h₂⟩ := h.kept key c₂ hc₂
    obtain ⟨c, hc, h₁⟩ := hbefore.kept key c₁ hc₁
    exact ⟨c, hc, h₃.trans (h₂.trans h₁)⟩
  closed := by
    intro x hx
    obtain ⟨⟨c₁, hc₁, hname⟩, hnone⟩ := h.closed x hx
    obtain ⟨c, hc, hrequester⟩ := hbefore.kept _ c₁ hc₁
    refine ⟨⟨c, hc, by rw [← hrequester, hname]⟩, ?_⟩
    refine Option.eq_none_iff_forall_ne_some.2 fun c' hc' => ?_
    obtain ⟨c₂, hc₂, -⟩ := hafter.kept _ c' hc'
    rw [hnone] at hc₂
    cases hc₂

/-- A response that is no notification closes its conversation, if there is one. -/
theorem deliver (hobserved : m.observed? = none) (e : Engine) (peer : Endpoint) :
    ∃ told, Tells told e (e.deliver peer m) ∧
      (told = [] ∨ ∃ name, told = [(name, peer, m)]) := by
  unfold Engine.deliver
  simp only [hobserved, Option.filter_none]
  cases hc : e.conversations.get? ⟨peer, m.token⟩ with
  | none =>
    refine ⟨[], of_mute ?_, .inl rfl⟩
    simp only
    split
    · exact .of_quiet (Quiet.frame.transmit e _ _)
    · exact .refl e
  | some c =>
    simp only
    have hget (k : ConversationKey) := get?_close_report e ⟨peer, m.token⟩ c (.response m) (.ok m) k
    -- the conversation is closed before the requester is told, and stays closed
    have hkept : ∀ key c', ((e.closeConversation ⟨peer, m.token⟩).reportResponse ⟨peer, m.token⟩
        c m).conversations.get? key = some c' →
        ∃ c, e.conversations.get? key = some c ∧ c'.requester = c.requester := by
      intro key c' hc'
      rw [reportResponse, hget] at hc'
      split at hc'
      · cases hc'
      · exact ⟨c', hc', rfl⟩
    obtain ⟨told, htold, hone⟩ := responses_report (e.closeConversation ⟨peer, m.token⟩)
      ⟨peer, m.token⟩ c m
    refine ⟨told, ⟨htold, hkept, ?_⟩, ?_⟩
    · intro x hx
      rcases hone with rfl | rfl
      · cases hx
      · obtain rfl := List.mem_singleton.1 hx
        refine ⟨⟨c, hc, rfl⟩, ?_⟩
        rw [reportResponse, hget, if_pos rfl]
    · exact hone.imp_right fun h => ⟨_, h⟩

/-- A plain message that is no request is received: nobody is told of anything but this
message, if it is a response. -/
theorem absorb (hrequest : ¬ m.isRequest = true) (hobserved : m.observed? = none)
    (hnone : e.Unobserved) (peer : Endpoint) :
    ∃ told, Tells told e (e.absorb peer m) ∧
      (told = [] ∨ m.isResponse = true ∧ ∃ name, told = [(name, peer, m)]) := by
  have hplain : m.IsPlain := fun h => absurd h hrequest
  have hsignal : ∀ (p : Endpoint) (m : Message), m.IsSignal → Voices [] p m := voices_signal []
  obtain ⟨e₁, -, hquiet, -, -, habsorb⟩ :=
    absorb_of_plain hplain hnone (Nat.le_refl e.now) hsignal peer
  rw [habsorb]
  have hnothing : Tells [] e e₁ := of_mute (.of_quiet hquiet)
  split
  · rw [accept_eq, if_neg hrequest]
    split
    · next hresponse =>
      obtain ⟨told, htells, hone⟩ := deliver hobserved e₁ peer
      refine ⟨told, htells.between (.of_quiet hquiet) (.refl _), ?_⟩
      exact hone.imp_right fun hname => ⟨hresponse, hname⟩
    · exact ⟨[], hnothing, .inl rfl⟩
  · exact ⟨[], hnothing, .inl rfl⟩

/-- A message that is no request arrives, and is at most told of. -/
theorem step {event : Event} (hevent : event.Brings peer m) (hrequest : ¬ m.isRequest = true)
    (hobserved : m.observed? = none) (hnone : e.Unobserved) :
    ∃ told, Tells told e (e.step event) ∧
      (told = [] ∨ m.isResponse = true ∧ ∃ name, told = [(name, peer, m)]) := by
  obtain ⟨told, htells, hone⟩ := absorb hrequest hobserved hnone peer
  rcases hevent with rfl | rfl
  · refine ⟨told, ?_, hone⟩
    show Tells told e (e.receive peer m)
    rw [receive_eq_absorb]
    refine htells.between (.refl e) ?_
    exact (Clerical.concludeAll _ _).toMute.trans (Clerical.settle _).toMute
  · exact ⟨told, htells, hone⟩

end Tells

/-! ## Requests of this node -/

/-- A request opens a conversation under its token, and tells nobody of a response. -/
theorem submit_told {sent : Message} (htokened : (e.withToken peer m).1 = .ok sent)
    (r : Requester) :
    (e.submit peer m r).2.responses = e.responses ∧
      ∀ key c', (e.submit peer m r).2.conversations.get? key = some c' →
        (∃ c, e.conversations.get? key = some c ∧ c'.requester = c.requester) ∨
          key = ⟨peer, sent.token⟩ ∧ c'.requester = r := by
  let e₀ := (e.withToken peer m).2
  let e₁ := e₀.openConversation ⟨peer, sent.token⟩ r
  have htoken : Mute e e₀ := (Clerical.withToken e peer m).toMute
  have hdropped : Mute e₀ (e₀.dropConversation ⟨peer, sent.token⟩) :=
    (Clerical.dropConversation e₀ _).toMute
  have hopened : e₁.responses = e.responses ∧ ∀ key c', e₁.conversations.get? key = some c' →
      (∃ c, e.conversations.get? key = some c ∧ c'.requester = c.requester) ∨
        key = ⟨peer, sent.token⟩ ∧ c'.requester = r := by
    refine ⟨hdropped.responses.trans htoken.responses, fun key c' hc' => ?_⟩
    rw [get?_openConversation] at hc'
    split at hc'
    · next hkey =>
      obtain rfl := Option.some.inj hc'
      exact .inr ⟨hkey.symm, rfl⟩
    · exact .inl (htoken.kept key c' hc')
  -- whatever follows is mute, whether the request could be sent or not
  have hafter {e' : Engine} (h : Mute e₁ e') : e'.responses = e.responses ∧
      ∀ key c', e'.conversations.get? key = some c' →
        (∃ c, e.conversations.get? key = some c ∧ c'.requester = c.requester) ∨
          key = ⟨peer, sent.token⟩ ∧ c'.requester = r := by
    refine ⟨h.responses.trans hopened.1, fun key c' hc' => ?_⟩
    obtain ⟨c₁, hc₁, hrequester⟩ := h.kept key c' hc'
    rw [hrequester]
    exact hopened.2 key c₁ hc₁
  have hgone : Mute e₁ (e₁.sendThrough peer sent none).2 :=
    .of_quiet (.sendThrough e₁ peer sent none)
  unfold submit
  simp only [htokened]
  split
  · exact hafter (hgone.trans (Clerical.settle _).toMute)
  · refine hafter (hgone.trans (Clerical.toMute ?_))
    refine (Clerical.closeConversation _ ⟨peer, sent.token⟩).trans ?_
    exact (Clerical.reportUnsent _ peer r _).trans (.settle _)

end Coap.Engine
