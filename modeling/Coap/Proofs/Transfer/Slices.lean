/-
# Responses that are cut

A response that is too large for one block leaves as its first slice, and as long as it is kept
every later block that is asked for is answered with the slice that begins where that block does,
in whatever size it is asked for.  A client that asks for each block where what it holds ends
holds the whole body in the end.
-/
import Coap.Proofs.Transfer.Downloads

namespace Coap.Transfers

variable {s : Transfers} {key : ConversationKey} {t since : Instant} {event : Event}
  {history : History} {peer : Endpoint} {m r first reply : Message} {block slice : Block}
  {d : Download} {got : Bytes} {exponent : Nat}

/-! ## Slices of a response -/

/-- The first slice of a response: the response with the beginning of its body, the place of the
slice, and the length of the body. -/
structure IsFirst (m : Message) (exponent : Nat) (first : Message) : Prop where
  header : first.type = m.type ∧ first.code = m.code ∧ first.id = m.id ∧ first.token = m.token
  payload : first.payload = m.payload.take (Block.sizeOfExponent exponent)
  place : first.block2? = some ⟨0, true, exponent⟩
  length : m.payload.length < UInt32.size →
    first.size2? = some (UInt32.ofNat m.payload.length)
  options : (first.options.remove .block2).remove .size2 = m.options.remove .size2

theorem isFirst_firstOptions (hwhole : ¬ m.options.has .block2)
    (hexponent : exponent ≤ Coap.maxBlockExponent) :
    IsFirst m exponent { m with
      options := firstOptions m exponent
      payload := m.payload.take (Block.sizeOfExponent exponent) } where
  header := ⟨rfl, rfl, rfl, rfl⟩
  payload := rfl
  place := by
    refine Message.block?_of_values (b := ⟨0, true, exponent⟩)
      (show 0 < 1048576 by decide) hexponent ?_
    rw [firstOptions, Options.values_add, Options.values_remove, if_pos rfl, if_pos rfl]
    rfl
  length := by
    intro hlength
    apply Message.unsigned?_of_values
    rw [firstOptions, if_pos hlength, Options.values_add, Options.values_remove,
      if_neg (by decide), if_neg (by decide), Options.values_add, Options.values_remove,
      if_pos rfl, if_pos rfl]
    rfl
  options := by
    have hbare : m.options.remove .block2 = m.options := Options.remove_of_not_has hwhole
    rw [firstOptions, Options.remove_add, Options.remove_remove, Options.remove_comm]
    split
    · rw [Options.remove_add, Options.remove_remove, Options.remove_comm, hbare]
    · rw [Options.remove_comm, hbare]

/-- What a client is given for the block it asks for at an event. -/
def given (s : Transfers) (key : ConversationKey) (t : Instant) (event : Event) : Bytes :=
  match event, asked? key event with
  | .receive peer m, some _ =>
    match (s.receive t peer m).1 with
    | .reply reply => reply.payload
    | _ => []
  | _, _ => []

/-- What a client holds after a history that held `got` before it. -/
def collected (s : Transfers) (key : ConversationKey) (got : Bytes) : History → Bytes
  | [] => got
  | (t, event) :: rest => collected (s.step t event) key (got ++ s.given key t event) rest

/-- The client asks for each block where what it holds ends. -/
def InOrder (s : Transfers) (key : ConversationKey) (got : Bytes) : History → Prop
  | [] => True
  | (t, event) :: rest =>
    (∀ block ∈ asked? key event, block.offset = got.length) ∧
      InOrder (s.step t event) key (got ++ s.given key t event) rest

instance decidableInOrder (key : ConversationKey) :
    (s : Transfers) → (got : Bytes) → (history : History) → Decidable (s.InOrder key got history)
  | _, _, [] => .isTrue trivial
  | s, got, (t, event) :: rest =>
    have := decidableInOrder key (s.step t event) (got ++ s.given key t event) rest
    inferInstanceAs (Decidable (_ ∧ _))

end Coap.Transfers
