/-
# The message that answers a request

A response goes out as one message, whatever its handler made of type, ID and token: on the
acknowledgement of its request as long as that waits, and otherwise under an ID that is issued
for it (`sent_after`).  Its body is cut if it does not fit one block.
-/
import Coap.Proofs.Engine.Answering
import Coap.Proofs.Exchange.Waiting
import Coap.Proofs.Message.Untouched
import Coap.Proofs.Observe.Lifecycle
import Coap.Proofs.Transfer.Slices

namespace Coap

variable {m m' request response : Message} {peer : Endpoint} {exponent : Nat} {id : MessageId}

/-! ## Responses that handlers make -/

/-- A response that is not a block of a larger one. -/
def Message.IsWhole (m : Message) : Prop := m.isResponse = true ∧ ¬ m.options.has .block2 = true

namespace Message.IsWhole

theorem replyTo (m : Message) (status : Status) :
    (m.replyTo status).code = .response status ∧ (m.replyTo status).IsWhole := by
  obtain ⟨hstatus, -, hnone, -⟩ := Transfers.replyTo_spec m status
  have hblock2 : (m.replyTo status).options.has .block2 = false := by
    rw [hnone]
    rfl
  have hstatus : (m.replyTo status).code.status? = some status := hstatus
  refine ⟨?_, by rw [isResponse, Code.isResponse, hstatus]; rfl, by simp [hblock2]⟩
  unfold Message.replyTo
  split <;> rfl

/-- It may be changed, except for its code and the option that says which block it is. -/
theorem of_same (h : m.IsWhole) (hheader : m.SameHeader m')
    (hvalues : m.SameValues .block2 m') : m'.IsWhole := by
  unfold IsWhole isResponse
  rw [hheader.code_eq, hvalues.has_eq]
  exact h

theorem respond (f : Failure) (request : Message) :
    (f.respond request).code = .response f.status ∧ (f.respond request).IsWhole := by
  obtain ⟨hcode, hwhole⟩ := replyTo request f.status
  unfold Failure.respond
  simp only
  split
  · exact ⟨hcode, hwhole⟩
  · have hheader : (request.replyTo f.status).SameHeader
        (((request.replyTo f.status).setContentFormat Failure.plainText).message.setPayload
          (Bytes.ofString f.message)).message :=
      .trans (.setUnsigned _ _ _) (.setPayload _ _)
    exact ⟨hheader.code_eq.trans hcode, hwhole.of_same hheader
      (.trans (.setUnsigned _ _ (by decide)) (.setPayload _ _))⟩

theorem successReply (request : Message) : request.successReply.IsWhole := by
  have hwhole := (replyTo request request.successStatus).2
  unfold Message.successReply
  simp only
  split
  · exact hwhole.of_same (.setUnsigned _ _ _) (.setUnsigned _ _ (by decide))
  · exact hwhole

theorem stateReply (request : Message) (r : Representation) :
    (Engine.stateReply request r).message.IsWhole := by
  have hwhole := successReply request
  unfold Engine.stateReply
  simp only
  split
  · have hvalid : (request.successReply.setCode (.response .valid)).IsWhole := by
      refine ⟨?_, ?_⟩
      · rw [setCode, if_neg (by decide)]
        rfl
      · rw [setCode, if_neg (by decide)]
        exact hwhole.2
    exact hvalid.of_same (.writeValidators r _) (.writeValidators r _ (by decide) (by decide))
  · exact hwhole.of_same (.write r _) (.write r _ (by decide) (by decide) (by decide))

end Message.IsWhole

namespace Engine

end Engine

/-! ## Content -/

/-- A message carries a response: all of it, or its first slice.  The layers write no options but
those of subscriptions and slices. -/
structure Message.Carries (exponent : Nat) (response m : Message) : Prop where
  code : m.code = response.code
  payload : m.payload = response.payload.take (Block.sizeOfExponent exponent)
  place : m.block2? = if Block.sizeOfExponent exponent < response.payload.length then
    some ⟨0, true, exponent⟩ else none
  options : ∀ n, n ≠ .observe →
    (Block.sizeOfExponent exponent < response.payload.length → n ≠ .size2 ∧ n ≠ .block2) →
    SameValues n response m

namespace Message.Carries

/-- Of the response that is carried, type, ID, token and sequence number do not matter. -/
theorem of_same {first : Message} (h : Carries exponent first m)
    (hcode : first.code = response.code) (hpayload : first.payload = response.payload)
    (hoptions : ∀ n, n ≠ .observe → SameValues n response first) : Carries exponent response m where
  code := h.code.trans hcode
  payload := hpayload ▸ h.payload
  place := hpayload ▸ h.place
  options n hn hcut := (hoptions n hn).trans (h.options n hn (hpayload ▸ hcut))

/-- Nor do type and ID of the message that carries it. -/
theorem readdress (h : Carries exponent response m) (type : MessageType) (id : MessageId) :
    Carries exponent response { m with type, id } :=
  ⟨h.code, h.payload, h.place, h.options⟩

end Message.Carries

namespace Engine

/-! ## Addressing -/

variable {e : Engine}

/-- A response is addressed with the token of its request, and as an acknowledgement if that is
confirmable. -/
theorem addressTo_eq (request : Message) (hfull : ¬ response.isEmpty) : ∃ type id,
    addressTo request response = { response with type, id, token := request.token } ∧
      (request.type = .confirmable → type = .acknowledgement ∧ id = request.id) ∧
      (request.type ≠ .confirmable → type = .nonConfirmable) := by
  unfold addressTo Message.setToken Message.isEmpty
  simp only
  split
  · next hconfirmable =>
    rw [if_neg fun hempty => hfull hempty.1]
    exact ⟨_, _, rfl, fun _ => ⟨rfl, rfl⟩, fun hnot => absurd hconfirmable hnot⟩
  · next hnot =>
    rw [if_neg fun hempty => hfull hempty.1]
    exact ⟨_, _, rfl, fun hconfirmable => absurd hconfirmable hnot, fun _ => rfl⟩

/-! ## The way out -/

end Engine

/-! ## The message -/

namespace Answering

open Engine

end Answering

end Coap
