/-
# What keeping books leaves alone

A node keeps books of the requests it sent: which of them are open, by when they have to be
answered, and what their requesters were told.  This file is the counterpart of `Quiet`.  It
says that to close, withdraw, expire or conclude a request sends nothing, serves nothing, tells
nobody of a response, and opens neither an exchange nor a conversation.
-/
import Coap.Proofs.Engine.Origins

namespace Coap

/-! ## What can be seen -/

/-- The response that a report is about. -/
def Report.response? : Report → Option Message
  | .response m => some m
  | .result (.ok m) => some m
  | _ => none

/-- The response a requester was told of, and from whom it came. -/
def LogEntry.response? (x : LogEntry) : Option (String × Endpoint × Message) :=
  match x.occurrence with
  | .reported requester peer r => r.response?.map (requester, peer, ·)
  | _ => none

/-- The handler that was called. -/
def LogEntry.called? (x : LogEntry) : Option String :=
  match x.occurrence with
  | .called handler => some handler
  | _ => none

namespace Engine

variable {e e' e'' : Engine}

/-- What was put into the outbox so far, in order, each with its time and its peer. -/
def outbox (e : Engine) : List (Instant × Endpoint × Message) :=
  e.history.filterMap LogEntry.sent?

/-- The messages that were sent so far, in order. -/
def sent (e : Engine) : List (Endpoint × Message) :=
  (e.history.filterMap LogEntry.sent?).map (·.2)

/-- The handlers that were called so far, in order. -/
def called (e : Engine) : List String := e.history.filterMap LogEntry.called?

/-- The responses that requesters were told of so far, in order. -/
def responses (e : Engine) : List (String × Endpoint × Message) :=
  e.history.filterMap LogEntry.response?

/-- The outbox grows by what is noted as sent, if anything is. -/
theorem outbox_note (e : Engine) (o : Occurrence) :
    (e.note o).outbox = e.outbox ++ (LogEntry.sent? ⟨e.now, o⟩).toList := by
  cases hsent : LogEntry.sent? ⟨e.now, o⟩ <;> simp [outbox, history, note, hsent]

/-- So does what was sent, without its time. -/
theorem sent_note (e : Engine) (o : Occurrence) :
    (e.note o).sent = e.sent ++ ((LogEntry.sent? ⟨e.now, o⟩).map (·.2)).toList := by
  cases hsent : LogEntry.sent? ⟨e.now, o⟩ <;> simp [sent, history, note, hsent]

/-- Calls of handlers are noted as such. -/
theorem called_note (e : Engine) (o : Occurrence) :
    (e.note o).called = e.called ++ (LogEntry.called? ⟨e.now, o⟩).toList := by
  cases hcalled : LogEntry.called? ⟨e.now, o⟩ <;> simp [called, history, note, hcalled]

/-- Responses are noted when they are reported. -/
theorem responses_note (e : Engine) (o : Occurrence) :
    (e.note o).responses = e.responses ++ (LogEntry.response? ⟨e.now, o⟩).toList := by
  cases hresponse : LogEntry.response? ⟨e.now, o⟩ <;> simp [responses, history, note, hresponse]

/-- The responses are among what requesters were told. -/
theorem responses_eq (e : Engine) :
    e.responses = e.reported.filterMap fun x => x.2.2.2.response?.map (x.2.1, x.2.2.1, ·) := by
  unfold responses reported
  rw [List.filterMap_filterMap]
  refine congrArg (List.filterMap · e.history) (funext fun x => ?_)
  unfold LogEntry.response? LogEntry.report?
  cases x.occurrence <;> rfl

/-! ## Conversations that go on -/

/-- No requester is told of a response, and each conversation is one that was open before. -/
structure Mute (e e' : Engine) : Prop where
  responses : e'.responses = e.responses
  kept : ∀ key c', e'.conversations.get? key = some c' →
    ∃ c, e.conversations.get? key = some c ∧ c'.requester = c.requester

namespace Mute

/-- The log and the conversations are the same. -/
theorem of_same (hlog : e'.log = e.log) (hconv : e'.conversations = e.conversations) :
    Mute e e' where
  responses := by simp only [Engine.responses, history, hlog]
  kept := by
    intro key c hc
    rw [hconv] at hc
    exact ⟨c, hc, rfl⟩

/-- An engine that does nothing is mute. -/
theorem refl (e : Engine) : Mute e e := of_same rfl rfl

/-- Mute steps follow each other. -/
theorem trans (h : Mute e e') (h' : Mute e' e'') : Mute e e'' where
  responses := h'.responses.trans h.responses
  kept := by
    intro key c'' hc''
    obtain ⟨c', hc', hrequester'⟩ := h'.kept key c'' hc''
    obtain ⟨c, hc, hrequester⟩ := h.kept key c' hc'
    exact ⟨c, hc, hrequester'.trans hrequester⟩

/-- Nobody is told anything, and the conversations are the same. -/
theorem of_quiet (h : Quiet e e') : Mute e e' where
  responses := by rw [responses_eq, responses_eq, h.reported]
  kept := by
    intro key c hc
    rw [h.conversations] at hc
    exact ⟨c, hc, rfl⟩

end Mute

/-! ## Bookkeeping -/

/-- There are no observers. -/
def Unobserved (e : Engine) : Prop := ∀ key, e.subscriptions.entries.get? key = none

/-- The books are kept: what is sent and served is as before, exchanges are at most given up,
and observers lost. -/
structure Clerical (e e' : Engine) : Prop extends Mute e e' where
  now : e'.now = e.now
  outboxOpen : e'.outboxOpen = e.outboxOpen
  service : e'.service = e.service
  incoming : e'.incoming = e.incoming
  transfers : e'.transfers = e.transfers
  delayed : e'.delayed = e.delayed
  ids : e'.outgoing.ids = e.outgoing.ids
  outbox : e'.outbox = e.outbox
  called : e'.called = e.called
  repeats : ∀ k m, e'.outgoing.openMessage? k = some m → e.outgoing.openMessage? k = some m
  unobserved : e.Unobserved → e'.Unobserved

namespace Clerical

variable {key : ConversationKey} {c : Conversation}

/-- Clerical work sends nothing. -/
theorem sent (h : Clerical e e') : e'.sent = e.sent :=
  congrArg (List.map fun x : Instant × Endpoint × Message => x.2) h.outbox

/-- Doing nothing is clerical work. -/
theorem refl (e : Engine) : Clerical e e :=
  ⟨.of_same rfl rfl, rfl, rfl, rfl, rfl, rfl, rfl, rfl, rfl, rfl, fun _ _ hm => hm, fun h => h⟩

/-- Clerical work may be followed by more of it. -/
theorem trans (h : Clerical e e') (h' : Clerical e' e'') : Clerical e e'' where
  toMute := h.toMute.trans h'.toMute
  now := h'.now.trans h.now
  outboxOpen := h'.outboxOpen.trans h.outboxOpen
  service := h'.service.trans h.service
  incoming := h'.incoming.trans h.incoming
  transfers := h'.transfers.trans h.transfers
  delayed := h'.delayed.trans h.delayed
  ids := h'.ids.trans h.ids
  outbox := h'.outbox.trans h.outbox
  called := h'.called.trans h.called
  repeats k m hm := h.repeats k m (h'.repeats k m hm)
  unobserved hnone := h'.unobserved (h.unobserved hnone)

/-- The tokens, deadlines and withdrawals of requests may change. -/
theorem books (e : Engine) (tokens : TokenPool) (deadlines : List Deadline)
    (withdrawing : List ConversationKey) :
    Clerical e { e with tokens, deadlines, withdrawing } :=
  ⟨.of_same rfl rfl, rfl, rfl, rfl, rfl, rfl, rfl, rfl, rfl, rfl, fun _ _ hm => hm, fun h => h⟩

/-- Conversations may be closed or change without changing hands. -/
theorem conversations (e : Engine) (withdrawing : List ConversationKey)
    (table : Table ConversationKey Conversation)
    (h : ∀ key c', table.get? key = some c' →
      ∃ c, e.conversations.get? key = some c ∧ c'.requester = c.requester) :
    Clerical e { e with withdrawing, conversations := table } :=
  ⟨⟨rfl, h⟩, rfl, rfl, rfl, rfl, rfl, rfl, rfl, rfl, rfl, fun _ _ hm => hm, fun h => h⟩

/-- A requester may be told what is no response. -/
theorem note (e : Engine) (requester : String) (peer : Endpoint) {r : Report}
    (h : r.response? = none) : Clerical e (e.note (.reported requester peer r)) := by
  refine ⟨⟨?_, fun _ c hc => ⟨c, hc, rfl⟩⟩, rfl, rfl, rfl, rfl, rfl, rfl, rfl, ?_, ?_,
    fun _ _ hm => hm, fun h => h⟩
  · rw [responses_note]
    simp [LogEntry.response?, h]
  · rw [outbox_note]
    simp [LogEntry.sent?]
  · rw [called_note]
    simp [LogEntry.called?]

/-! ### Reports and conversations -/

/-- To report a failure is clerical work, as it brings no response. -/
theorem report (e : Engine) (key : ConversationKey) (c : Conversation) {r : Report}
    (hr : r.response? = none) (failure : SendFailure) :
    Clerical e (e.report key c r (.error failure)) := by
  unfold Engine.report
  split
  · split
    · exact refl e
    · -- the one that waits is told its result, and its conversation settled
      refine (note e c.requester.name key.peer (r := .result (.error failure)) rfl).trans ?_
      refine conversations _ _ _ fun k c' hc' => ?_
      unfold Table.modify at hc'
      split at hc'
      · next c₀ hc₀ =>
        rw [Table.get?_insert] at hc'
        split at hc'
        · next hk =>
          obtain rfl := Option.some.inj hc'
          refine ⟨c₀, hk ▸ hc₀, ?_⟩
          dsimp only
          split <;> rfl
        · exact ⟨c', hc', rfl⟩
      · exact ⟨c', hc', rfl⟩
  · exact note e _ _ hr

/-- A conversation may have a requester who wants to know of a failure, or none. -/
theorem reportFailure (e : Engine) (key : ConversationKey) (c : Conversation)
    (failure : SendFailure) : Clerical e (e.reportFailure key c failure) := by
  unfold Engine.reportFailure
  refine report e key c ?_ failure
  split <;> rfl

/-- A request that could not be sent is reported to whom it came from. -/
theorem reportUnsent (e : Engine) (peer : Endpoint) (requester : Requester)
    (failure : SendFailure) : Clerical e (e.reportUnsent peer requester failure) := by
  unfold Engine.reportUnsent
  refine note e requester.name peer ?_
  split <;> rfl

/-- To strike a conversation off is clerical work. -/
theorem erase (e : Engine) (key : ConversationKey) :
    Clerical e { e with conversations := e.conversations.erase key } := by
  refine conversations e _ _ fun k c' hc' => ?_
  rw [Table.get?_erase] at hc'
  split at hc'
  · cases hc'
  · exact ⟨c', hc', rfl⟩

/-- A conversation that is dropped gives its token back. -/
theorem dropConversation (e : Engine) (key : ConversationKey) :
    Clerical e (e.dropConversation key) := by
  unfold Engine.dropConversation
  split
  · exact refl e
  · simp only
    split
    · exact (erase e key).trans (reportFailure _ _ _ _)
    · exact erase e key

/-- A conversation that is closed cancels its observation as well. -/
theorem closeConversation (e : Engine) (key : ConversationKey) :
    Clerical e (e.closeConversation key) :=
  (erase e key).trans (books _ _ _ _)

/-- To find a token for a message is clerical work. -/
theorem withToken (e : Engine) (peer : Endpoint) (m : Message) :
    Clerical e (e.withToken peer m).2 :=
  withToken_of (fun e tokens => books e tokens _ _) e peer m

/-! ### Withdrawals and outcomes -/

/-- A conversation that is withdrawn is dropped, if it is there. -/
theorem withdraw (e : Engine) (key : ConversationKey) : Clerical e (e.withdraw key) := by
  let dropped := e.dropConversation key
  have hcancelled : Clerical dropped
      { dropped with outgoing := dropped.outgoing.cancel key.peer key.token } :=
    ⟨.of_same rfl rfl, rfl, rfl, rfl, rfl, rfl, rfl, rfl, rfl, rfl,
      fun _ _ hm => Outgoing.openMessage?_cancel hm, fun h => h⟩
  exact ((dropConversation e key).trans hcancelled).trans (books _ _ _ _)

/-- So are those that are collected for it. -/
theorem withdrawCollected (n : Nat) (e : Engine) : Clerical e (withdrawCollected n e) := by
  induction n generalizing e with
  | zero => exact refl e
  | succ n ih =>
    unfold Engine.withdrawCollected
    split
    · exact refl e
    · exact ((books e _ _ _).trans (withdraw _ _)).trans (ih _)

/-- Hence nothing leaves when the books are settled. -/
theorem settle (e : Engine) : Clerical e e.settle := withdrawCollected _ e

/-- To cancel a request says nothing to the peer. -/
theorem cancel (e : Engine) (key : ConversationKey) : Clerical e (e.cancel key) :=
  (withdraw e key).trans (settle _)

/-- A conversation may be closed and its failure reported. -/
theorem close_reportFailure (e : Engine) (key : ConversationKey) (c : Conversation)
    (failure : SendFailure) :
    Clerical e ((e.closeConversation key).reportFailure key c failure) :=
  (closeConversation e key).trans (reportFailure _ _ _ _)

/-- A request that is given up is closed and reported, if it is still the same one. -/
theorem expire (e : Engine) (key : ConversationKey) (number : Nat) :
    Clerical e (e.expire key number) := by
  unfold Engine.expire
  split
  · exact refl e
  · split
    · exact close_reportFailure _ _ _ _
    · exact refl e

/-- So are all that are due. -/
theorem expireAll (due : List Deadline) (e : Engine) : Clerical e (e.expireAll due) := by
  induction due generalizing e with
  | nil => exact refl e
  | cons d rest ih => exact (expire e d.key d.number).trans (ih _)

/-- When timers fire, requests are given up, and this is clerical. -/
theorem expireDue (now : Instant) (e : Engine) : Clerical e (expireDue now e) :=
  (books e _ _ _).trans (expireAll _ _)

/-- An exchange that fails ends what depends on it, and all of that is clerical. -/
theorem conclude (e : Engine) (event : ExchangeEvent) : Clerical e (e.conclude event) := by
  have hsettled : Clerical e { e with subscriptions := e.subscriptions.settle event } :=
    ⟨.of_same rfl rfl, rfl, rfl, rfl, rfl, rfl, rfl, rfl, rfl, rfl, fun _ _ hm => hm,
      fun hnone key => Subscriptions.get?_settle (hnone key) event⟩
  unfold Engine.conclude
  simp only
  split
  · exact hsettled
  · split
    · exact hsettled.trans (close_reportFailure _ _ _ _)
    · split
      · exact hsettled
      · split
        · exact hsettled.trans (expire _ _ _)
        · exact hsettled.trans (books _ _ _ _)

/-- So it is for all exchanges that fail. -/
theorem concludeAll (events : List ExchangeEvent) (e : Engine) :
    Clerical e (e.concludeAll events) := by
  induction events generalizing e with
  | nil => exact refl e
  | cons event rest ih => exact (conclude e event).trans (ih _)

end Clerical

end Engine

end Coap
