/-
# Accounts of message IDs

The account that is kept for a peer says which ID comes next, which IDs are in use, and in a
queue when each of these expires.  Only the front of the queue is looked at: what has expired
there leaves the queue, and its ID is struck off those in use.  A new ID is searched for from
the next one upwards, past those in use, and is entered in both.

Nothing here says that the three parts of an account agree with each other, or that a search
comes to an end: it is a loop, whose result is a part, and there is none of one that goes on for
ever.  A pool of message IDs gives the same IDs from the times alone.
-/
import Coap.Identifier.MessageIds
import Mathlib.Data.Finset.Card
import Mathlib.Data.PFun

namespace Coap

/-- What is known of the IDs that were issued for one peer: the next one to try, those in use,
and the time at which each of them expires, the oldest entry first. -/
structure IdAccount where
  next : MessageId
  inUse : Finset MessageId
  expiries : List (Instant × MessageId)

namespace IdAccount

/-- An account without IDs, and the one to start from. -/
def startingAt (first : MessageId) : IdAccount := ⟨first, ∅, []⟩

/-- Strikes off the IDs whose time is over, as far as they stand at the front of the queue. -/
def retire (a : IdAccount) (now : Instant) : IdAccount :=
  let expired := a.expiries.takeWhile (·.1 ≤ now)
  { a with
    inUse := expired.foldl (fun used x => used.erase x.2) a.inUse
    expiries := a.expiries.dropWhile (·.1 ≤ now) }

/-- One step of a search: a candidate that is free is found, and otherwise the next one is tried. -/
def probe (inUse : Finset MessageId) (candidate : MessageId) : MessageId ⊕ MessageId :=
  if candidate ∈ inUse then .inr (candidate + 1) else .inl candidate

/-- The first ID from a candidate upwards that is not in use. -/
def search (inUse : Finset MessageId) : MessageId → Part MessageId :=
  PFun.fix fun candidate => Part.some (probe inUse candidate)

/-- Issues an ID unless all 65536 are in use. -/
def issue (a : IdAccount) (now : Instant) (lifetime : Duration) :
    Part (Option MessageId × IdAccount) :=
  let a := a.retire now
  if a.inUse.card > 65535 then .some (none, a)
  else
    (search a.inUse a.next).map fun id =>
      (some id, ⟨id + 1, insert id a.inUse, a.expiries ++ [(now + lifetime, id)]⟩)

end IdAccount

/-- The accounts for all peers. -/
structure IdAccounts where
  lifetime : Duration
  firstIds : Draws MessageId
  peers : Table Endpoint IdAccount := .empty

namespace IdAccounts

/-- Issues an ID for a message to `peer`, whose account is opened if there is none. -/
def issue (s : IdAccounts) (now : Instant) (peer : Endpoint) :
    Part (Except Exhausted MessageId × IdAccounts) :=
  let (account, firstIds) :=
    match s.peers.get? peer with
    | some account => (account, s.firstIds)
    | none =>
      let (first, rest) := s.firstIds.next
      (.startingAt first, rest)
  (account.issue now s.lifetime).map fun (id?, account) =>
    (id?.elim (.error .messageIds) .ok,
      { s with firstIds, peers := s.peers.insert peer account })

/-- Closes the accounts in which no ID is in use any more. -/
def purge (s : IdAccounts) (now : Instant) : IdAccounts :=
  { s with
    peers := (s.peers.mapValues fun _ account => account.retire now).filter
      fun _ account => account.inUse ≠ ∅ }

end IdAccounts

end Coap
