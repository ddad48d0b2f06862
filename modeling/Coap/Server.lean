/-
# Servers

A server reads datagrams from a transport, lets an engine deal with them, and writes what
the engine sends.  It runs until the transport fails in a way that is not the fault of one
peer; a failure to write is only noted.
-/
import Coap.Engine.Serving

namespace Coap

/-- What goes wrong with a transport. -/
inductive TransportFault
  | io (message : String)
  | unspecified (message : String)
deriving DecidableEq

/-- The wording of a transport fault. -/
def TransportFault.message : TransportFault → String
  | io m => "I/O error: " ++ m
  | unspecified m => "unspecified: " ++ m

/-- Why a server stopped. -/
structure ServerFault where
  cause : TransportFault
deriving DecidableEq

/-- The wording of the end of a server. -/
def ServerFault.message (f : ServerFault) : String := "fatal transport error: " ++ f.cause.message

/-- A running or stopped server.  Writing fails while the transport says so. -/
structure Server where
  engine : Engine
  writeFault? : Option TransportFault := none
  stopped? : Option ServerFault := none

namespace Server

/-- A server on a transport whose packets have a size, if that is known. -/
def start (c : Config) (mtu? : Option Nat) (chances : Chances) (service : Service)
    (resources : List (String × Resource)) : Server :=
  { engine := .start (c.forMtu mtu?) chances service resources }

/-- Whether the server still reads from its transport. -/
def isRunning (s : Server) : Bool := s.stopped?.isNone

/-- Takes out what could be seen of the engine; messages that could not be written are left
out. -/
def collect (s : Server) : List LogEntry × Server :=
  let seen := s.engine.history.filter fun entry =>
    match entry.occurrence with
    | .sent _ _ => s.writeFault?.isNone
    | _ => true
  (seen, { s with engine := { s.engine with log := [] } })

/-- Does something with the engine of a running server. -/
def run (s : Server) (f : Engine → Engine) : Server :=
  if s.isRunning then { s with engine := f s.engine } else s

/-- A datagram arrives. -/
def receive (s : Server) (peer : Endpoint) (datagram : Bytes) : Server :=
  s.run (·.handle peer (Datagram.decode datagram))

/-- Reading fails; without a peer to blame the server stops. -/
def readFault (s : Server) (fault : TransportFault) (peer? : Option Endpoint) : Server :=
  if s.isRunning ∧ peer?.isNone then { s with stopped? := some ⟨fault⟩ } else s

/-- Time passes. -/
def advance (s : Server) (duration : Duration) : Server := s.run (·.advance duration)

end Server

end Coap
