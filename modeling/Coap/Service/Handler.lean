/-
# Handlers

A small vocabulary of handlers, enough to try out a server: some answer in a fixed way,
some from the request, and some not at all.
-/
import Coap.Service.Router

namespace Coap

/-- What a handler does. -/
inductive Behaviour
  /-- Sends the payload back. -/
  | echo
  /-- Describes the request. -/
  | info
  /-- Answers in a fixed way, with the usual status unless another is given. -/
  | fixed (status? : Option Status) (options : List (OptionNumber × OptionValue))
      (payload : Bytes)
  /-- Answers with this message. -/
  | raw (m : Message)
  /-- Fails. -/
  | fail (failure : Failure)
  /-- Gives the request up. -/
  | abandon
  /-- Never answers. -/
  | hold
  /-- Waits before it does something. -/
  | after (delay : Duration) (behaviour : Behaviour)

namespace Behaviour

/-- The description of a request: method, path, the segments left over, the query arguments
and the length of the payload. -/
def describe (r : Request) : String :=
  let method := match r.message.method? with
    | some m => "Some(" ++ m.name ++ ")"
    | none => "None"
  String.intercalate "|" [method, r.message.uriPath, String.intercalate "," r.unmatched,
    String.intercalate "&" r.message.uriQueries, toString r.message.payload.length]

/-- The response of an edit; what could not be built is an internal error. -/
def respond (e : Edit) : Reaction :=
  match e.fault? with
  | none => .respond e.message
  | some fault => .fail (.internal fault.message)

/-- What a handler does about a request. -/
def react (r : Request) : Behaviour → Reaction
  | echo => respond (r.message.successReply.setPayload r.message.payload)
  | info =>
    respond ((r.message.successReply.setPayload (Bytes.ofString (describe r))).andThen
      (·.setContentFormat Failure.plainText))
  | fixed status? options payload =>
    let reply := r.message.successReply
    let reply := match status? with
      | some status => reply.setCode (.response status)
      | none => reply
    respond ((reply.addOptions options).andThen (·.setPayload payload))
  | raw m => .respond m
  | fail f => .fail f
  | abandon => .abandon
  | hold => .hold
  | after delay behaviour => .after delay (behaviour.react r)

end Behaviour

/-- A handler: a behaviour, with a name unless it is anonymous, or a resource. -/
inductive Handler
  | behaviour (name? : Option String) (behaviour : Behaviour)
  | resource (id : ResourceId)

/-- What a handler does when it is called. -/
def Handler.call : Handler → Service
  | behaviour name? b => fun r => { handler? := name?, reaction := b.react r }
  | resource id => fun _ => { reaction := .render id }

/-- Registers resources at their paths; they are numbered in order. -/
def Router.observeAll (r : Router Handler) (resources : List (String × Resource)) :
    Router Handler :=
  resources.zipIdx.foldl (fun r (x, id) => r.on x.1 .get (.resource id)) r

end Coap
