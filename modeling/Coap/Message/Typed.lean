/-
# Typed access to the options of a message

The options a node works with every day, each read and written in the type it stands for.
Reading yields nothing where a value does not fit the type; writing goes through the checks
of `Message.setOption` and `Message.addOption`.
-/
import Coap.Block
import Coap.Message.Basic
import Coap.Path
import Coap.SequenceNumber

namespace Coap.Message

/-- The number an option holds in its first value. -/
def unsigned? (m : Message) (n : OptionNumber) : Option UInt32 :=
  (m.options.first? n).bind OptionValue.unsigned?

/-- The number an option holds, if it fits 16 bits. -/
def unsigned16? (m : Message) (n : OptionNumber) : Option UInt16 :=
  (m.unsigned? n).bind fun v => if v.toNat < 65536 then some (UInt16.ofNat v.toNat) else none

/-! ## Path and query -/

/-- The path of a request, with slashes between its segments. -/
def uriPath (m : Message) : String :=
  Path.join ((m.options.values .uriPath).filterMap OptionValue.text?)

/-- Replaces the path, one option value for every segment.  The segments are added one by
one, so the ones before a refused segment stay. -/
def setUriPath (m : Message) (path : String) : Edit :=
  (m.removeOption .uriPath).addOptions
    ((Path.segments path).map fun s => (.uriPath, .text s))

/-- The query arguments of a request. -/
def uriQueries (m : Message) : List String :=
  (m.options.values .uriQuery).filterMap OptionValue.text?

/-! ## Representations -/

/-- The format of the payload. -/
def contentFormat? (m : Message) : Option UInt16 := m.unsigned16? .contentFormat

/-- Sets the format of the payload. -/
def setContentFormat (m : Message) (format : UInt16) : Edit :=
  m.setUnsigned .contentFormat format.toUInt32

/-- The format the sender would like the answer to have. -/
def accept? (m : Message) : Option UInt16 := m.unsigned16? .accept

/-- The names of the representations at hand. -/
def etags (m : Message) : List Bytes :=
  (m.options.values .etag).filterMap OptionValue.octets?

/-- Adds the name of a representation. -/
def addEtag (m : Message) (etag : Bytes) : Edit := m.addOption .etag (.octets etag)

/-- How long a response may be reused, in seconds. -/
def maxAge? (m : Message) : Option UInt32 := m.unsigned? .maxAge

/-- Sets how long a response may be reused, in seconds. -/
def setMaxAge (m : Message) (seconds : UInt32) : Edit := m.setUnsigned .maxAge seconds

/-! ## Observation -/

/-- The registration of a request or the sequence number of a notification. -/
def observed? (m : Message) : Option SequenceNumber :=
  (m.unsigned? .observe).bind SequenceNumber.ofUInt32?

/-- Sets the registration or the sequence number. -/
def setObserve (m : Message) (s : SequenceNumber) : Edit := m.setUnsigned .observe s.toUInt32

/-! ## Blocks -/

/-- The block an option describes. -/
def block? (m : Message) (n : OptionNumber) : Option Block :=
  (m.unsigned? n).bind fun v => (Block.ofUInt32? v).toOption

/-- The block of the request body that a message carries or acknowledges. -/
def block1? (m : Message) : Option Block := m.block? .block1

/-- Sets the block of the request body. -/
def setBlock1 (m : Message) (b : Block) : Edit := m.setUnsigned .block1 b.toUInt32

/-- The block of the response body that a message carries or asks for. -/
def block2? (m : Message) : Option Block := m.block? .block2

/-- Sets the block of the response body. -/
def setBlock2 (m : Message) (b : Block) : Edit := m.setUnsigned .block2 b.toUInt32

/-- The announced length of the request body, or the longest one accepted. -/
def size1? (m : Message) : Option UInt32 := m.unsigned? .size1

/-- Sets the length of the request body. -/
def setSize1 (m : Message) (size : UInt32) : Edit := m.setUnsigned .size1 size

/-- The announced length of the response body. -/
def size2? (m : Message) : Option UInt32 := m.unsigned? .size2

/-- Sets the length of the response body. -/
def setSize2 (m : Message) (size : UInt32) : Edit := m.setUnsigned .size2 size

end Coap.Message
