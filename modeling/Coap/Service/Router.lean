/-
# Routing

A router finds the handler of a request by its path and method.  Of the paths that were
registered, the longest that starts the path of the request is taken, and what it leaves
over is passed on to the handler; there is no falling back to a shorter one.
-/
import Coap.Path
import Coap.Service.Reaction
import Coap.Table

namespace Coap

/-- The handlers at one path: one for each method, and one for the other methods. -/
structure Route (η : Type) where
  handlers : Table Method η := .empty
  fallback? : Option η := none

/-- The routes by their paths. -/
structure Router (η : Type) where
  routes : Table (List String) (Route η) := .empty

/-- Where a request goes. -/
inductive Dispatch (η : Type)
  /-- No route starts its path. -/
  | notFound
  /-- Its route has no handler for its method. -/
  | methodNotAllowed
  /-- This handler gets it, with these segments left over. -/
  | run (handler : η) (unmatched : List String)

namespace Route

variable {η : Type}

/-- The handler for a method. -/
def handler? (r : Route η) (method? : Option Method) : Option η :=
  (method?.bind r.handlers.get?).or r.fallback?

end Route

namespace Router

variable {η : Type}

/-- No routes. -/
def empty : Router η := {}

/-- Registers a handler for a method at a path. -/
def on (r : Router η) (path : String) (method : Method) (handler : η) : Router η :=
  ⟨r.routes.alter (Path.segments path) {} fun route =>
    { route with handlers := route.handlers.insert method handler }⟩

/-- Registers a handler for the methods without one at a path. -/
def otherwise (r : Router η) (path : String) (handler : η) : Router η :=
  ⟨r.routes.alter (Path.segments path) {} fun route => { route with fallback? := some handler }⟩

/-- The route of the longest beginning of a path that has one, among those of at most the
given length, and its length. -/
def lookup (r : Router η) (path : List String) : Nat → Option (Route η × Nat)
  | 0 => (r.routes.get? []).map (·, 0)
  | n + 1 =>
    match r.routes.get? (path.take (n + 1)) with
    | some route => some (route, n + 1)
    | none => r.lookup path n

/-- Where a message goes. -/
def dispatch (r : Router η) (m : Message) : Dispatch η :=
  let path := Path.segments m.uriPath
  match r.lookup path path.length with
  | none => .notFound
  | some (route, n) =>
    match route.handler? m.method? with
    | some handler => .run handler (path.drop n)
    | none => .methodNotAllowed

/-- The service behind a router, given what its handlers do. -/
def service (r : Router η) (call : η → Service) : Service := fun request =>
  match r.dispatch request.message with
  | .notFound => { reaction := .fail .notFound }
  | .methodNotAllowed => { reaction := .fail .methodNotAllowed }
  | .run handler unmatched => call handler { request with unmatched }

end Router

end Coap
