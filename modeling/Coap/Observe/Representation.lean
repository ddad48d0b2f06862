/-
# Representations

The state of a resource at one moment, as it is sent to a client: the payload with its
format, the name that tells it apart from other representations, and how long it may be
reused.
-/
import Coap.Message.Typed

namespace Coap

/-- One serialised state of a resource. -/
structure Representation where
  payload : Bytes := []
  contentFormat? : Option UInt16 := none
  etag? : Option Bytes := none
  maxAge? : Option UInt32 := none
deriving DecidableEq

namespace Representation

/-- Whether one of the names at hand is that of this representation. -/
def matchesAny (r : Representation) (etags : List Bytes) : Bool :=
  match r.etag? with
  | some etag => etags.contains etag
  | none => false

/-- Adds the name of the representation, if it has one. -/
def writeEtag (r : Representation) (m : Message) : Edit :=
  match r.etag? with
  | some etag => m.addEtag etag
  | none => ⟨m, none⟩

/-- Sets how long the representation may be reused, unless it goes without saying. -/
def writeMaxAge (r : Representation) (m : Message) : Edit :=
  match r.maxAge? with
  | some seconds => if seconds = impliedMaxAge then ⟨m, none⟩ else m.setMaxAge seconds
  | none => ⟨m, none⟩

/-- Sets the format of the payload, if it is known. -/
def writeContentFormat (r : Representation) (m : Message) : Edit :=
  match r.contentFormat? with
  | some format => m.setContentFormat format
  | none => ⟨m, none⟩

/-- Writes what a response needs to confirm that the client's copy is still good. -/
def writeValidators (r : Representation) (m : Message) : Edit :=
  (r.writeEtag m).andThen r.writeMaxAge

/-- Writes the whole representation. -/
def write (r : Representation) (m : Message) : Edit :=
  ((r.writeValidators m).andThen r.writeContentFormat).andThen (·.setPayload r.payload)

end Representation

end Coap
