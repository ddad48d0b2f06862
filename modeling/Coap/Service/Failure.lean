/-
# Failures

A handler that cannot answer a request says so with a failure: a status, which is an
internal error unless it is given, and a text for people.  The text travels as the payload
of the error response.
-/
import Coap.Message.Typed

namespace Coap

/-- Why a request was not answered with a success. -/
structure Failure where
  status? : Option Status
  message : String
deriving DecidableEq

namespace Failure

/-- The content format of plain text. -/
def plainText : UInt16 := 0

/-- A failure with a given status. -/
def of (status : Status) (message : String) : Failure := ⟨some status, message⟩

/-- The server is at fault. -/
def internal (message : String) : Failure := of .internalServerError message

/-- The request makes no sense. -/
def badRequest (message : String) : Failure := of .badRequest message

/-- There is nothing at the path of the request. -/
def notFound : Failure := of .notFound "Not found"

/-- The resource does not know the method of the request. -/
def methodNotAllowed : Failure := of .methodNotAllowed "Method not allowed"

/-- The resource has no representation in the format asked for. -/
def notAcceptable : Failure := of .notAcceptable "Not acceptable"

/-- The status that is reported. -/
def status (f : Failure) : Status := f.status?.getD .internalServerError

/-- The form of a failure in diagnostics. -/
def text (f : Failure) : String := "Handling error " ++ f.status.name ++ ": " ++ f.message

/-- The response that reports a failure of `request`; an empty text takes no payload. -/
def respond (f : Failure) (request : Message) : Message :=
  let response := request.replyTo f.status
  if f.message.isEmpty then response
  else
    let described := (response.setContentFormat plainText).message
    (described.setPayload (Bytes.ofString f.message)).message

end Failure

end Coap
