/-
# Message IDs

Every message that asks for an acknowledgement, or could be received twice, gets an ID that
was not given to another message for the same peer within a lifetime.  The IDs for a peer
are issued one after another, modulo 65536, from a random start.  They therefore leave use
in the order in which they came into use, and those in use are always the last few that
were issued: it is enough to know when each of them expires.  The accounts of
`Coap.Identifier.Accounts` keep the IDs themselves; both are proved to issue the same ones.
-/
import Coap.Draws
import Coap.Duration
import Coap.Endpoint
import Coap.Queue
import Coap.Table

namespace Coap

/-- Identifiers of a kind have run out for a peer. -/
inductive Exhausted
  | messageIds
  | tokens
deriving DecidableEq

/-- The wording of exhaustion. -/
def Exhausted.message : Exhausted → String
  | messageIds => "all message ID identifiers are in use for this peer"
  | tokens => "all token identifiers are in use for this peer"

/-- The IDs issued for one peer: the next one, and when the ones before it expire, the
oldest first. -/
structure IssuedIds where
  next : MessageId
  expiries : Queue Instant

namespace IssuedIds

/-- No IDs, with the one to start from. -/
def startingAt (first : MessageId) : IssuedIds := ⟨first, .empty⟩

/-- Gives up the IDs whose time is over. -/
def retire (s : IssuedIds) (now : Instant) : IssuedIds :=
  { s with expiries := s.expiries.dropWhile (· ≤ now) }

/-- The number of IDs in use. -/
def inUse (s : IssuedIds) : Nat := s.expiries.size

/-- Issues an ID unless all 65536 are in use. -/
def issue (s : IssuedIds) (now : Instant) (lifetime : Duration) :
    Option MessageId × IssuedIds :=
  let s := s.retire now
  if s.inUse ≥ 65536 then (none, s)
  else (some s.next, ⟨s.next + 1, s.expiries.push (now + lifetime)⟩)

end IssuedIds

/-- The IDs issued for all peers. -/
structure MessageIdPool where
  lifetime : Duration
  firstIds : Draws MessageId
  peers : Table Endpoint IssuedIds := .empty

namespace MessageIdPool

/-- Issues an ID for a message to `peer`. -/
def issue (pool : MessageIdPool) (now : Instant) (peer : Endpoint) :
    Except Exhausted MessageId × MessageIdPool :=
  let (issued, firstIds) :=
    match pool.peers.get? peer with
    | some issued => (issued, pool.firstIds)
    | none =>
      let (first, rest) := pool.firstIds.next
      (.startingAt first, rest)
  let (id?, issued) := issued.issue now pool.lifetime
  let pool := { pool with firstIds, peers := pool.peers.insert peer issued }
  match id? with
  | some id => (.ok id, pool)
  | none => (.error .messageIds, pool)

/-- Forgets the peers all of whose IDs have expired. -/
def purge (pool : MessageIdPool) (now : Instant) : MessageIdPool :=
  { pool with
    peers := (pool.peers.mapValues fun _ issued => issued.retire now).filter
      fun _ issued => issued.inUse != 0 }

/-- The number of peers with IDs that have not been forgotten. -/
def trackedPeers (pool : MessageIdPool) : Nat := pool.peers.size

end MessageIdPool

end Coap
