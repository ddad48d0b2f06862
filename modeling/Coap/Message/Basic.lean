/-
# Messages

A message has a type, a code, a message ID, a token, options and a payload.  An empty
message carries nothing beyond its header.

Messages are built by edits.  An edit answers with the message as it leaves it and, if it
could not be carried out, with the reason; edits are chained by `Edit.andThen`, which stops
at the first one that fails.
-/
import Coap.Code
import Coap.Option.Values
import Coap.Token

namespace Coap

/-- The number a message is acknowledged and recognised by. -/
abbrev MessageId := UInt16

/-- A message of the protocol. -/
structure Message where
  type : MessageType
  code : Code
  id : MessageId
  token : Token := .empty
  options : Options := .empty
  payload : Bytes := []
deriving DecidableEq

/-- Why a message cannot be built. -/
inductive BuildFault
  | tokenTooLong (length : Nat)
  | notAllowedOnEmpty (code : Code)
  | option (fault : OptionFault)
deriving DecidableEq

/-- The wording of a build fault. -/
def BuildFault.message : BuildFault → String
  | tokenTooLong n => "token of " ++ toString n ++ " bytes exceeds the 8 byte limit"
  | notAllowedOnEmpty c => c.text ++ " messages carry nothing beyond the header"
  | option f => f.message

/-- The outcome of an edit: the message it leaves, and why it failed, if it did. -/
structure Edit where
  message : Message
  fault? : Option BuildFault := none
deriving DecidableEq

namespace Edit

/-- Goes on with another edit unless this one failed. -/
def andThen (e : Edit) (f : Message → Edit) : Edit :=
  match e.fault? with
  | none => f e.message
  | some _ => e

/-- The edited message, or why there is none. -/
def toExcept (e : Edit) : Except BuildFault Message :=
  match e.fault? with
  | none => .ok e.message
  | some fault => .error fault

@[simp] theorem andThen_done (m : Message) (f : Message → Edit) :
    andThen ⟨m, none⟩ f = f m := rfl

@[simp] theorem andThen_failed (m : Message) (fault : BuildFault) (f : Message → Edit) :
    andThen ⟨m, some fault⟩ f = ⟨m, some fault⟩ := rfl

end Edit

/-- The token made of `bytes`, or the fault that they are too many. -/
def Token.ofBytes (bytes : Bytes) : Except BuildFault Token :=
  match Token.ofBytes? bytes with
  | some t => .ok t
  | none => .error (.tokenTooLong bytes.length)

namespace Message

/-! ## New messages -/

/-- A request without a message ID of its own. -/
def request (type : MessageType) (method : Method) : Message :=
  { type, code := .request method, id := 0 }

/-- A response without a message ID of its own. -/
def response (type : MessageType) (status : Status) : Message :=
  { type, code := .response status, id := 0 }

/-- A message that consists of its header. -/
def bare (type : MessageType) (id : MessageId) : Message :=
  { type, code := .empty, id }

/-- The probe that asks a peer whether it is alive. -/
def ping (id : MessageId) : Message := bare .confirmable id

/-- The acknowledgement that carries no response. -/
def emptyAck (id : MessageId) : Message := bare .acknowledgement id

/-- The rejection of a message. -/
def resetOf (id : MessageId) : Message := bare .reset id

/-- A response to `m` without options and payload: it travels on the acknowledgement of a
confirmable request, and as a non-confirmable message otherwise. -/
def replyTo (m : Message) (status : Status) : Message :=
  match m.type with
  | .confirmable =>
    { type := .acknowledgement, code := .response status, id := m.id, token := m.token }
  | _ => { type := .nonConfirmable, code := .response status, id := 0, token := m.token }

/-! ## Questions -/

/-- Whether the message consists of its header. -/
def isEmpty (m : Message) : Bool := m.code.isEmpty

/-- Whether the message is a request. -/
def isRequest (m : Message) : Bool := m.code.isRequest

/-- Whether the message is a response. -/
def isResponse (m : Message) : Bool := m.code.isResponse

/-- The method of a request. -/
def method? (m : Message) : Option Method := m.code.method?

/-- The status of a response. -/
def status? (m : Message) : Option Status := m.code.status?

/-- Whether the message is a response that reports success. -/
def isSuccess (m : Message) : Bool :=
  match m.status? with
  | some s => s.isSuccess
  | none => false

/-! ## Edits -/

/-- Changes the code; a message that becomes empty loses token, options and payload. -/
def setCode (m : Message) (code : Code) : Message :=
  if code.isEmpty then bare m.type m.id else { m with code }

/-- Changes the token. -/
def setToken (m : Message) (token : Token) : Edit :=
  if m.isEmpty ∧ !token.isEmpty then ⟨m, some (.notAllowedOnEmpty m.code)⟩
  else ⟨{ m with token }, none⟩

/-- Changes the payload. -/
def setPayload (m : Message) (payload : Bytes) : Edit :=
  if m.isEmpty ∧ !payload.isEmpty then ⟨m, some (.notAllowedOnEmpty m.code)⟩
  else ⟨{ m with payload }, none⟩

/-- Adds a value behind the values the option already has. -/
def addOption (m : Message) (n : OptionNumber) (v : OptionValue) : Edit :=
  if m.isEmpty then ⟨m, some (.notAllowedOnEmpty m.code)⟩
  else
    match v.validateFor n with
    | .error fault => ⟨m, some (.option fault)⟩
    | .ok () =>
      if !n.isRepeatable ∧ m.options.has n then ⟨m, some (.option (.notRepeatable n))⟩
      else ⟨{ m with options := m.options.add n v }, none⟩

/-- Drops every value of an option. -/
def removeOption (m : Message) (n : OptionNumber) : Message :=
  { m with options := m.options.remove n }

/-- Replaces every value of an option; if the new value is refused the old ones stay. -/
def setOption (m : Message) (n : OptionNumber) (v : OptionValue) : Edit :=
  let e := (m.removeOption n).addOption n v
  match e.fault? with
  | none => e
  | some fault => ⟨m, some fault⟩

/-- Replaces every value of an option by a number. -/
def setUnsigned (m : Message) (n : OptionNumber) (v : UInt32) : Edit :=
  m.setOption n (.unsigned v)

/-- Adds the values in order, stopping at the first that is refused. -/
def addOptions (m : Message) : List (OptionNumber × OptionValue) → Edit
  | [] => ⟨m, none⟩
  | (n, v) :: rest => (m.addOption n v).andThen (addOptions · rest)

/-! ## Text -/

/-- The form of a message in diagnostics: its header, token and options, and how long its
payload is. -/
def text (m : Message) : String :=
  let options := m.options.entries.map fun x => " " ++ x.number.text ++ "=" ++ x.value.describe
  let payload :=
    if m.payload.isEmpty then "" else " payload=" ++ toString m.payload.length ++ "B"
  "[" ++ m.type.name ++ " " ++ m.code.text ++ " mid=" ++ toString m.id.toNat ++ " token=" ++
    m.token.text ++ String.join options ++ payload ++ "]"

end Message

end Coap
