/-
# What layers make of a message

A message on its way in goes on to the next layer with its code and token, however it was put
together, and a layer answers only requests, under their tokens.  On its way out a message
keeps its header, except that a response which has lost its acknowledgement becomes
confirmable.
-/
import Coap.Proofs.Exchange.Answers
import Coap.Proofs.Exchange.Opened
import Coap.Proofs.Observe.Addressed
import Coap.Proofs.Transfer.Downloads

namespace Coap

/-! ## Received messages -/

/-- A message goes on with its code and token, and only a request is answered, under its
token. -/
def Verdict.Follows (m : Message) : Verdict → Prop
  | .forward m' => m'.code = m.code ∧ m'.token = m.token
  | .reply answer => m.isRequest = true ∧ answer.token = m.token
  | .consume => True

/-- A reply has the token of its message. -/
theorem Message.token_replyTo (m : Message) (status : Status) :
    (m.replyTo status).token = m.token := by
  unfold replyTo
  split <;> rfl

namespace Transfers

variable {s : Transfers} {now : Instant} {peer : Endpoint} {m : Message} {block : Block}

/-- So has the refusal of too large a body. -/
theorem token_tooLarge (s : Transfers) (m : Message) (exponent : Nat) :
    (s.tooLarge m exponent).token = m.token := by
  have hblock : (m.replyTo .requestEntityTooLarge).SameHeader
      ((m.replyTo .requestEntityTooLarge).setBlock1 ⟨0, false, exponent⟩).message :=
    .setUnsigned _ _ _
  unfold tooLarge
  simp only
  split
  · exact ((hblock.trans (.setUnsigned _ _ _)).token_eq).trans (m.token_replyTo _)
  · exact hblock.token_eq.trans (m.token_replyTo _)

/-- The acknowledgement of a piece has the token of its message. -/
theorem token_continueReply (m : Message) (block : Block) (exponent : Nat) :
    (continueReply m block exponent).token = m.token := by
  unfold continueReply
  simp only
  split
  · exact (Message.SameHeader.setUnsigned _ _ _).token_eq.trans (m.token_replyTo _)
  · exact m.token_replyTo _

/-- A slice has the token of the request for it. -/
theorem token_sliceReply (m : Message) (d : Download) (slice : Block) :
    (sliceReply m d slice).message.token = m.token := by
  have hheader : (m.replyTo (d.template.status?.getD .content)).SameHeader
      (sliceReply m d slice).message :=
    .trans ⟨_, _, rfl⟩ (.andThen (.setUnsigned _ _ _) fun m => .setPayload m _)
  exact hheader.token_eq.trans (m.token_replyTo _)

/-- What is handed on of a piece, or answered to it, has its token. -/
theorem follows_receiveBlock (hrequest : m.isRequest = true) :
    (s.receiveBlock now peer m block).1.Follows m := by
  rw [receiveBlock_eq hrequest]
  simp only
  split
  · exact ⟨hrequest, token_tooLarge s m _⟩
  · split
    · exact ⟨hrequest, m.token_replyTo _⟩
    · split
      · exact ⟨hrequest, m.token_replyTo _⟩
      · split
        · exact ⟨hrequest, token_tooLarge _ m _⟩
        · split
          · exact ⟨hrequest, token_continueReply m _ _⟩
          · exact ⟨rfl, rfl⟩

theorem follows_serveBlock (hrequest : m.isRequest = true) :
    (s.serveBlock now peer m block).1.Follows m := by
  unfold serveBlock
  simp only
  split
  · exact ⟨hrequest, m.token_replyTo _⟩
  · split
    · exact ⟨hrequest, m.token_replyTo _⟩
    · split
      · exact ⟨hrequest, m.token_replyTo _⟩
      · exact ⟨hrequest, token_sliceReply m _ _⟩

/-- So does what transfers make of any message. -/
theorem follows_receive (s : Transfers) (now : Instant) (peer : Endpoint) (m : Message) :
    (s.receive now peer m).1.Follows m := by
  unfold receive
  split
  · next hrequest =>
    split
    · exact follows_receiveBlock hrequest
    · split
      · exact follows_serveBlock hrequest
      · exact ⟨rfl, rfl⟩
    · exact ⟨rfl, rfl⟩
  · exact ⟨rfl, rfl⟩

end Transfers

/-- The incoming exchanges keep code and token of what they hand on. -/
theorem Incoming.follows_receive (s : Incoming) (now : Instant) (peer : Endpoint) (m : Message) :
    (s.receive now peer m).1.Follows m := by
  unfold receive receiveRequest
  simp only
  repeat' split
  all_goals first | exact ⟨rfl, rfl⟩ | trivial

/-- The outgoing exchanges keep them, too. -/
theorem Outgoing.follows_receive (s : Outgoing) (peer : Endpoint) (m : Message) :
    (s.receive peer m).1.Follows m := by
  unfold receive
  simp only
  repeat' split
  all_goals first | exact ⟨rfl, rfl⟩ | trivial

/-- The subscriptions keep them, and answer under the token of a request. -/
theorem Subscriptions.follows_receive (s : Subscriptions) (peer : Endpoint) (m : Message) :
    (s.receive peer m).1.Follows m := by
  unfold receive
  repeat' split
  all_goals first | exact ⟨rfl, rfl⟩ | trivial

/-! ## Messages to be sent -/

/-- A response that has lost its acknowledgement becomes a confirmable message. -/
theorem Incoming.retyped_send (s : Incoming) (peer : Endpoint) (m : Message) :
    (s.send peer m).1 = m ∨
      ¬ m.isEmpty ∧ (s.send peer m).1 = { m with type := .confirmable } := by
  by_cases h : m.type = .acknowledgement ∧ ¬ m.isEmpty
  · rw [send_eq h.1 h.2]
    split
    · exact .inl rfl
    · exact .inr ⟨h.2, rfl⟩
  · refine .inl ?_
    unfold send
    rw [if_neg (by simpa using h)]

end Coap
