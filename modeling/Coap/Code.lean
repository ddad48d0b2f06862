/-
# Message types and codes

The header of a message says how it takes part in the message exchange (its type) and what
it asks or answers (its code).  A code is one byte; `Code.meaning` sorts it into the empty
code, the request methods, the response statuses and the codes nobody has assigned, which
are kept verbatim.
-/

namespace Coap

/-! ## Types -/

/-- The role of a message in the message exchange. -/
inductive MessageType
  | confirmable
  | nonConfirmable
  | acknowledgement
  | reset
deriving DecidableEq

namespace MessageType

/-- The type named by the two low bits of a number. -/
def ofBits (bits : Nat) : MessageType :=
  match bits % 4 with
  | 0 => confirmable
  | 1 => nonConfirmable
  | 2 => acknowledgement
  | _ => reset

/-- The two header bits of a type. -/
def bits : MessageType → Nat
  | confirmable => 0
  | nonConfirmable => 1
  | acknowledgement => 2
  | reset => 3

@[simp] theorem ofBits_bits (t : MessageType) : ofBits t.bits = t := by
  cases t <;> rfl

theorem bits_lt (t : MessageType) : t.bits < 4 := by
  cases t <;> decide

/-- The name of a type in diagnostics. -/
def name : MessageType → String
  | confirmable => "Confirmable"
  | nonConfirmable => "NonConfirmable"
  | acknowledgement => "Acknowledgement"
  | reset => "Reset"

end MessageType

/-! ## Methods and statuses -/

/-- What a request asks for. -/
inductive Method
  | get
  | post
  | put
  | delete
deriving DecidableEq

/-- The code byte of a method. -/
def Method.byte : Method → UInt8
  | get => 0x01
  | post => 0x02
  | put => 0x03
  | delete => 0x04

/-- The name of a method in diagnostics. -/
def Method.name : Method → String
  | get => "Get"
  | post => "Post"
  | put => "Put"
  | delete => "Delete"

/-- What a response reports. -/
inductive Status
  | created
  | deleted
  | valid
  | changed
  | content
  | continued
  | badRequest
  | unauthorized
  | badOption
  | forbidden
  | notFound
  | methodNotAllowed
  | notAcceptable
  | requestEntityIncomplete
  | preconditionFailed
  | requestEntityTooLarge
  | unsupportedContentFormat
  | internalServerError
  | notImplemented
  | badGateway
  | serviceUnavailable
  | gatewayTimeout
  | proxyingNotSupported
deriving DecidableEq

/-- The code byte of a status. -/
def Status.byte : Status → UInt8
  | created => 0x41
  | deleted => 0x42
  | valid => 0x43
  | changed => 0x44
  | content => 0x45
  | continued => 0x5F
  | badRequest => 0x80
  | unauthorized => 0x81
  | badOption => 0x82
  | forbidden => 0x83
  | notFound => 0x84
  | methodNotAllowed => 0x85
  | notAcceptable => 0x86
  | requestEntityIncomplete => 0x88
  | preconditionFailed => 0x8C
  | requestEntityTooLarge => 0x8D
  | unsupportedContentFormat => 0x8F
  | internalServerError => 0xA0
  | notImplemented => 0xA1
  | badGateway => 0xA2
  | serviceUnavailable => 0xA3
  | gatewayTimeout => 0xA4
  | proxyingNotSupported => 0xA5

/-- The name of a status in diagnostics. -/
def Status.name : Status → String
  | created => "Created"
  | deleted => "Deleted"
  | valid => "Valid"
  | changed => "Changed"
  | content => "Content"
  | continued => "Continue"
  | badRequest => "BadRequest"
  | unauthorized => "Unauthorized"
  | badOption => "BadOption"
  | forbidden => "Forbidden"
  | notFound => "NotFound"
  | methodNotAllowed => "MethodNotAllowed"
  | notAcceptable => "NotAcceptable"
  | requestEntityIncomplete => "RequestEntityIncomplete"
  | preconditionFailed => "PreconditionFailed"
  | requestEntityTooLarge => "RequestEntityTooLarge"
  | unsupportedContentFormat => "UnsupportedContentFormat"
  | internalServerError => "InternalServerError"
  | notImplemented => "NotImplemented"
  | badGateway => "BadGateway"
  | serviceUnavailable => "ServiceUnavailable"
  | gatewayTimeout => "GatewayTimeout"
  | proxyingNotSupported => "ProxyingNotSupported"

/-- The success statuses are those of class 2. -/
def Status.isSuccess (s : Status) : Bool := s.byte.toNat / 32 == 2

/-! ## Codes -/

/-- The code byte of a message. -/
structure Code where
  byte : UInt8
deriving DecidableEq

/-- What a code byte stands for. -/
inductive Meaning
  | empty
  | request (method : Method)
  | response (status : Status)
  | reserved (byte : UInt8)
deriving DecidableEq

namespace Code

/-- The code of an empty message. -/
def empty : Code := ⟨0x00⟩

/-- The code of a request. -/
def request (m : Method) : Code := ⟨m.byte⟩

/-- The code of a response. -/
def response (s : Status) : Code := ⟨s.byte⟩

/-- The meaning of a code byte; a byte without an assigned meaning stands for itself. -/
def meaning (c : Code) : Meaning :=
  match c.byte.toNat with
  | 0x00 => .empty
  | 0x01 => .request .get
  | 0x02 => .request .post
  | 0x03 => .request .put
  | 0x04 => .request .delete
  | 0x41 => .response .created
  | 0x42 => .response .deleted
  | 0x43 => .response .valid
  | 0x44 => .response .changed
  | 0x45 => .response .content
  | 0x5F => .response .continued
  | 0x80 => .response .badRequest
  | 0x81 => .response .unauthorized
  | 0x82 => .response .badOption
  | 0x83 => .response .forbidden
  | 0x84 => .response .notFound
  | 0x85 => .response .methodNotAllowed
  | 0x86 => .response .notAcceptable
  | 0x88 => .response .requestEntityIncomplete
  | 0x8C => .response .preconditionFailed
  | 0x8D => .response .requestEntityTooLarge
  | 0x8F => .response .unsupportedContentFormat
  | 0xA0 => .response .internalServerError
  | 0xA1 => .response .notImplemented
  | 0xA2 => .response .badGateway
  | 0xA3 => .response .serviceUnavailable
  | 0xA4 => .response .gatewayTimeout
  | 0xA5 => .response .proxyingNotSupported
  | _ => .reserved c.byte

@[simp] theorem meaning_empty : empty.meaning = .empty := rfl

@[simp] theorem meaning_request (m : Method) : (request m).meaning = .request m := by
  cases m <;> rfl

@[simp] theorem meaning_response (s : Status) : (response s).meaning = .response s := by
  cases s <;> rfl

/-- Whether this is the code of an empty message. -/
def isEmpty (c : Code) : Bool := c == empty

/-- The method of a request code. -/
def method? (c : Code) : Option Method :=
  match c.meaning with
  | .request m => some m
  | _ => none

/-- The status of a response code. -/
def status? (c : Code) : Option Status :=
  match c.meaning with
  | .response s => some s
  | _ => none

/-- Whether this is the code of a request. -/
def isRequest (c : Code) : Bool := c.method?.isSome

/-- Whether this is the code of a response. -/
def isResponse (c : Code) : Bool := c.status?.isSome

/-- The written form of a code: its class, a point and two digits of detail. -/
def text (c : Code) : String :=
  let detail := c.byte.toNat % 32
  let zero := if detail < 10 then "0" else ""
  toString (c.byte.toNat / 32) ++ "." ++ zero ++ toString detail

end Code

/-- The name of a meaning in diagnostics. -/
def Meaning.name : Meaning → String
  | empty => "Empty"
  | request m => "Request(" ++ m.name ++ ")"
  | response s => "Response(" ++ s.name ++ ")"
  | reserved b => "Reserved(" ++ toString b.toNat ++ ")"

end Coap
