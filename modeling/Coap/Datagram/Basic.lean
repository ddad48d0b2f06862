/-
# Datagrams

A datagram holds one message: four bytes of header, the token, the options in ascending
order of their numbers, and after a marker byte the payload.  `encode` writes a message;
`decode` reads one and tells apart datagrams whose form is broken from requests with an
option that the receiver must understand and does not.
-/
import Coap.Datagram.Field
import Coap.Message.Basic

namespace Coap.Datagram

/-- The protocol version in the two high bits of a datagram. -/
def version : Nat := 1

/-- Why a datagram holds no message, with what its sender needs to be told. -/
inductive DecodeFault
  /-- The form is broken; the message ID is known unless the header was lost. -/
  | malformed (id? : Option MessageId) (fault : FormatFault)
  /-- A request carries a critical option that is not acceptable. -/
  | badOption (id : MessageId) (token : Token) (type : MessageType) (number : OptionNumber)
      (fault : OptionFault)
deriving DecidableEq

/-- The wording of a decoding fault. -/
def DecodeFault.message : DecodeFault → String
  | malformed none fault => "malformed message (mid=None): " ++ fault.message
  | malformed (some id) fault =>
    "malformed message (mid=Some(" ++ toString id.toNat ++ ")): " ++ fault.message
  | badOption id _ type number fault =>
    "bad critical option " ++ toString number.toNat ++ " in " ++ type.name ++
      " request mid=" ++ toString id.toNat ++ ": " ++ fault.message

/-! ## Writing -/

/-- The bytes of entries that follow an option with number `previous`. -/
def encodeEntries (previous : Nat) : List OptionEntry → Bytes
  | [] => []
  | x :: rest =>
    optionHeader (x.number.toNat - previous) x.value.bytes.length ++ x.value.bytes ++
      encodeEntries x.number.toNat rest

/-- The datagram of a message. -/
def encode (m : Message) : Bytes :=
  let header := UInt8.ofNat (version * 64 + m.type.bits * 16 + m.token.bytes.length)
  let payload := if m.payload.isEmpty then [] else payloadMarker :: m.payload
  header :: m.code.byte :: (Bytes.ofUInt16 m.id ++ m.token.bytes ++
    encodeEntries 0 m.options.entries ++ payload)

/-! ## Reading -/

/-- An option as a datagram carries it. -/
structure RawOption where
  number : OptionNumber
  bytes : Bytes
deriving DecidableEq

/-- Everything that can be read after the token: the options in order, and how they end,
with the payload or with a fault. -/
structure Body where
  options : List RawOption
  ending : Except FormatFault Bytes

/-- Reads the options that follow one with number `previous`. -/
def readBody (previous : Nat) (bytes : Bytes) : Body :=
  match _h : nextOption previous bytes with
  | .error fault => ⟨[], .error fault⟩
  | .ok (.finish payload) => ⟨[], .ok payload⟩
  | .ok (.option number value rest) =>
    let body := readBody number rest
    ⟨⟨.ofNat number, value⟩ :: body.options, body.ending⟩
termination_by bytes.length
decreasing_by exact length_of_nextOption _h

/-- The value of an option that follows the options `kept`. -/
def readOption (kept : Options) (raw : RawOption) : Except OptionFault OptionValue :=
  if kept.has raw.number ∧ !raw.number.isRepeatable then .error (.notRepeatable raw.number)
  else OptionValue.decode raw.number raw.bytes

/-- Keeps the options that are acceptable and leaves out the others; in a request the first
unacceptable critical option is an error.  An option that spells out its implied value is
left out everywhere. -/
def keepOptions (isRequest : Bool) (kept : Options) :
    List RawOption → Except (OptionNumber × OptionFault) Options
  | [] => .ok kept
  | raw :: rest =>
    match readOption kept raw with
    | .ok value => keepOptions isRequest (kept.add raw.number value) rest
    | .error (.impliedValue _) => keepOptions isRequest kept rest
    | .error fault =>
      if isRequest ∧ raw.number.isCritical then .error (raw.number, fault)
      else keepOptions isRequest kept rest

/-- The message with the given header and token whose options and payload are in `bytes`. -/
def decodeBody (type : MessageType) (code : Code) (id : MessageId) (token : Token)
    (bytes : Bytes) : Except DecodeFault Message :=
  let body := readBody 0 bytes
  match keepOptions code.isRequest .empty body.options with
  | .error (number, fault) => .error (.badOption id token type number fault)
  | .ok options =>
    match body.ending with
    | .error fault => .error (.malformed (some id) fault)
    | .ok payload => .ok { type, code, id, token, options, payload }

/-- The message in a datagram. -/
def decode : Bytes → Except DecodeFault Message
  | first :: code :: high :: low :: rest =>
    let type := MessageType.ofBits (first.toNat / 16)
    let tokenLength := first.toNat % 16
    let code : Code := ⟨code⟩
    let id := Bytes.toUInt16 high low
    if first.toNat / 64 ≠ version then
      .error (.malformed none (.unsupportedVersion (first.toNat / 64)))
    else if tokenLength > maxTokenLength then
      .error (.malformed (some id) (.invalidTokenLength tokenLength))
    else if code.isEmpty then
      if type = .nonConfirmable then .error (.malformed (some id) .emptyNonConfirmable)
      else .ok (.bare type id)
    else if rest.length < tokenLength then .error (.malformed (some id) .truncatedToken)
    else
      match Token.ofBytes? (rest.take tokenLength) with
      | none => .error (.malformed (some id) (.invalidTokenLength tokenLength))
      | some token => decodeBody type code id token (rest.drop tokenLength)
  | _ => .error (.malformed none .tooShort)

/-! ## Buffers -/

/-- Reads the message in a buffer that holds at most one datagram, and leaves the buffer
empty; an empty buffer holds no message. -/
def takeMessage (buffer : Bytes) : Option (Except DecodeFault Message) × Bytes :=
  if buffer.isEmpty then (none, buffer) else (some (decode buffer), [])

/-- Writes a message behind what a buffer holds. -/
def putMessage (buffer : Bytes) (m : Message) : Bytes := buffer ++ encode m

end Coap.Datagram
