/-
# Conversations

A conversation is opened by a request, in place of the one before under its peer and token.
It ends with an answer that is no notification, with a failure, or when the request is
withdrawn.  This file says what each of these steps does to the table of conversations and
what the requesters hear of it.
-/
import Coap.Proofs.Engine.Quiet

namespace Coap

/-- Whether a report about the conversation would reach its requester under a name: one that
waits is told its result once. -/
def Conversation.Listens (c : Conversation) (name : String) : Prop :=
  c.requester.name = name ∧ ¬ (c.requester.interest = .awaiting ∧ c.settled = true)

instance (c : Conversation) (name : String) : Decidable (c.Listens name) :=
  inferInstanceAs (Decidable (_ ∧ ¬ (_ ∧ _)))

/-- What a requester is told: the report, or the outcome if it waits for that alone. -/
def Requester.worded (r : Requester) (report : Report) (outcome : Except SendFailure Message) :
    Report :=
  match r.interest with
  | .awaiting => .result outcome
  | _ => report

namespace Engine

variable {e e' : Engine} {key k : ConversationKey} {c : Conversation} {name : String}

/-! ## Reports -/

/-- A report changes what is known of conversations, and the log. -/
theorem report_frame (e : Engine) (key : ConversationKey) (c : Conversation) (r : Report)
    (outcome : Except SendFailure Message) :
    ∃ conversations withdrawing log,
      e.report key c r outcome = { e with conversations, withdrawing, log } := by
  unfold report
  split
  · split <;> exact ⟨_, _, _, rfl⟩
  · exact ⟨_, _, _, rfl⟩

/-- A report is for the requester of the conversation. -/
theorem reportsTo_report (e : Engine) (key : ConversationKey) (c : Conversation) (r : Report)
    (outcome : Except SendFailure Message) (name : String) :
    (e.report key c r outcome).reportsTo name =
      e.reportsTo name ++ if c.Listens name then [c.requester.worded r outcome] else [] := by
  obtain ⟨number, ⟨requester, interest⟩, latest?, settled⟩ := c
  cases interest with
  | awaiting =>
    cases settled with
    | true => simp [report, Conversation.Listens]
    | false =>
      show (e.note (.reported requester key.peer (.result outcome))).reportsTo name = _
      rw [reportsTo_note_reported]
      simp [Conversation.Listens, Requester.worded]
  | full | plain =>
    have htold := reportsTo_note_reported e requester name key.peer r
    simpa [report, Conversation.Listens, Requester.worded] using htold

/-- A report settles the conversation of a requester that waits, and leaves all others be. -/
theorem get?_report (e : Engine) (key : ConversationKey) (c : Conversation) (r : Report)
    (outcome : Except SendFailure Message) (k : ConversationKey) :
    (e.report key c r outcome).conversations.get? k =
      (e.conversations.get? k).map fun c' =>
        if c.requester.interest = .awaiting ∧ c.settled = false ∧ key = k ∧
          c'.number = c.number then { c' with settled := true } else c' := by
  obtain ⟨number, ⟨requester, interest⟩, latest?, settled⟩ := c
  cases interest with
  | awaiting =>
    cases settled with
    | true => simp [report]
    | false =>
      simp only [report, note, Table.modify, if_neg Bool.false_ne_true]
      cases hkey : e.conversations.get? key with
      | none =>
        by_cases hk : key = k
        · subst hk
          simp [hkey]
        · simp [hk]
      | some c' =>
        by_cases hk : key = k
        · subst hk
          simp [hkey]
        · simp [hk, Table.get?_insert]
  | full | plain => simp [report, note]

/-- A conversation that changes hears of a response, and is settled if that was waited for. -/
theorem get?_insert_report (e : Engine) (key : ConversationKey) (c : Conversation) (m : Message)
    (k : ConversationKey) :
    ({ e with conversations := e.conversations.insert key c }.reportResponse
      key c m).conversations.get? k =
    if key = k then some
      { c with settled := c.settled || decide (c.requester.interest = .awaiting) }
    else e.conversations.get? k := by
  unfold reportResponse
  rw [get?_report, Table.get?_insert]
  by_cases hk : key = k
  · subst hk
    obtain ⟨number, requester, latest?, settled⟩ := c
    cases settled <;> by_cases hw : requester.interest = .awaiting <;> simp [hw]
  · simp [hk]

/-! ## Conversations that end -/

/-- A conversation that was closed is not there to be settled. -/
theorem get?_report_of_closed (hclosed : e.conversations.get? key = none) (r : Report)
    (outcome : Except SendFailure Message) :
    (e.report key c r outcome).conversations.get? k = e.conversations.get? k := by
  rw [get?_report]
  by_cases hk : key = k
  · subst hk
    simp [hclosed]
  · simp [hk]

/-- A conversation that is closed is gone, and the others are there. -/
theorem get?_closeConversation (e : Engine) (key k : ConversationKey) :
    (e.closeConversation key).conversations.get? k =
      if key = k then none else e.conversations.get? k :=
  Table.get?_erase _ _ _

/-- A conversation that ends with a failure gives up its token. -/
theorem close_reportFailure_frame (e : Engine) (key : ConversationKey) (c : Conversation)
    (failure : SendFailure) :
    ∃ conversations tokens withdrawing log,
      (e.closeConversation key).reportFailure key c failure =
        { e with conversations, tokens, withdrawing, log } := by
  obtain ⟨_, _, _, hframe⟩ := report_frame (e.closeConversation key) key c _ (.error failure)
  exact ⟨_, _, _, _, hframe⟩

/-- A conversation that is closed with a report is gone as well. -/
theorem get?_close_report (e : Engine) (key : ConversationKey) (c : Conversation) (r : Report)
    (outcome : Except SendFailure Message) (k : ConversationKey) :
    ((e.closeConversation key).report key c r outcome).conversations.get? k =
      if key = k then none else e.conversations.get? k := by
  have hclosed : (e.closeConversation key).conversations.get? key = none := by
    rw [get?_closeConversation, if_pos rfl]
  rw [get?_report_of_closed hclosed, get?_closeConversation]

theorem get?_close_reportFailure (e : Engine) (key : ConversationKey) (c : Conversation)
    (failure : SendFailure) (k : ConversationKey) :
    ((e.closeConversation key).reportFailure key c failure).conversations.get? k =
      if key = k then none else e.conversations.get? k :=
  get?_close_report e key c _ (.error failure) k

/-- A request that is given up changes conversations, tokens, withdrawals and the log only. -/
theorem expire_frame (e : Engine) (key : ConversationKey) (number : Nat) :
    ∃ conversations tokens withdrawing log,
      e.expire key number = { e with conversations, tokens, withdrawing, log } := by
  unfold expire
  split
  · exact ⟨_, _, _, _, rfl⟩
  · split
    · exact close_reportFailure_frame _ _ _ _
    · exact ⟨_, _, _, _, rfl⟩

theorem get?_dropConversation (e : Engine) (key k : ConversationKey) :
    (e.dropConversation key).conversations.get? k =
      if key = k then none else e.conversations.get? k := by
  unfold dropConversation
  cases hkey : e.conversations.get? key with
  | none =>
    by_cases hk : key = k
    · subst hk
      simpa using hkey
    · simp [hk]
  | some c =>
    have herased : (e.conversations.erase key).get? key = none := by simp [Table.get?_erase]
    simp only
    split
    · unfold reportFailure
      simp only
      rw [get?_report_of_closed herased]
      exact Table.get?_erase _ _ _
    · exact Table.get?_erase _ _ _

/-- Of a conversation that is given up only a requester that still waits is told. -/
theorem reportsTo_dropConversation (hc : e.conversations.get? key = some c) (name : String) :
    (e.dropConversation key).reportsTo name = e.reportsTo name ++
      if c.Listens name ∧ c.requester.interest = .awaiting then [.result (.error .shutDown)]
      else [] := by
  unfold dropConversation
  simp only [hc]
  split
  · next hwaits =>
    unfold reportFailure
    simp only
    rw [reportsTo_report]
    simp only [hwaits, and_true, Requester.worded]
    rfl
  · next hwaits =>
    simp only [hwaits, and_false, if_false, List.append_nil]
    rfl

/-- Where there is no conversation, none is dropped. -/
theorem dropConversation_of_none (hnone : e.conversations.get? key = none) :
    e.dropConversation key = e := by
  simp [dropConversation, hnone]

/-! ## Conversations that begin -/

/-- A conversation that is opened takes the place of the one before it. -/
theorem get?_openConversation (e : Engine) (key : ConversationKey) (requester : Requester)
    (k : ConversationKey) :
    (e.openConversation key requester).conversations.get? k =
      if key = k then some { number := (e.dropConversation key).nextNumber, requester }
      else e.conversations.get? k := by
  unfold openConversation
  rw [Table.get?_insert, get?_dropConversation]
  split <;> rfl

end Engine

end Coap
