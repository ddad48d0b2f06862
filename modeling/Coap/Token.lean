/-
# Tokens

A token ties a response to its request.  It is an opaque string of at most eight bytes.
-/
import Coap.Bytes

namespace Coap

/-- The longest token, in bytes. -/
def maxTokenLength : Nat := 8

/-- A correlator of at most eight bytes. -/
structure Token where
  bytes : Bytes
  length_le : bytes.length ≤ maxTokenLength := by decide
deriving DecidableEq

namespace Token

/-- The token without bytes. -/
def empty : Token := ⟨[], by decide⟩

/-- The token made of `bytes`, if they are few enough. -/
def ofBytes? (bytes : Bytes) : Option Token :=
  if h : bytes.length ≤ maxTokenLength then some ⟨bytes, h⟩ else none

/-- Whether the token has no bytes. -/
def isEmpty (t : Token) : Bool := t.bytes.isEmpty

/-- The written form of a token: its bytes in hexadecimal. -/
def text (t : Token) : String :=
  if t.isEmpty then "<empty>" else t.bytes.toHex

@[simp] theorem ofBytes?_bytes (t : Token) : ofBytes? t.bytes = some t := by
  simp [ofBytes?, t.length_le]

end Token

end Coap
