/-
# Endpoints

Peers are told apart by their addresses.  A message of a peer is known by its ID, and a
conversation with a peer by its token.
-/
import Coap.Message.Basic

namespace Coap

/-- The address of a peer; only its identity matters. -/
structure Endpoint where
  address : Nat
deriving DecidableEq

/-- A message to or from a peer. -/
structure MessageKey where
  peer : Endpoint
  id : MessageId
deriving DecidableEq

/-- A conversation with a peer: a request and its responses, a transfer in blocks or an
observation. -/
structure ConversationKey where
  peer : Endpoint
  token : Token
deriving DecidableEq

end Coap
