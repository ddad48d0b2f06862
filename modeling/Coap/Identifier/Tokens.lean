/-
# Tokens in use

A token that is made up for a request must not be that of another open conversation with
the same peer.  Tokens are drawn at random until one is free, but not for ever.
-/
import Coap.Identifier.MessageIds

namespace Coap

/-- How many tokens are drawn before all count as taken. -/
def tokenAttempts : Nat := 64

/-- The tokens in use with all peers. -/
structure TokenPool where
  length : Nat
  bytes : Draws UInt8
  peers : Table Endpoint (List Token) := .empty

namespace TokenPool

/-- The tokens in use with one peer. -/
def taken (pool : TokenPool) (peer : Endpoint) : List Token := (pool.peers.get? peer).getD []

/-- The first of the next `attempts` drawn tokens that is not taken. -/
def drawFree (length : Nat) (taken : List Token) (bytes : Draws UInt8) :
    Nat → Option Token × Draws UInt8
  | 0 => (none, bytes)
  | attempts + 1 =>
    let (drawn, bytes) := bytes.take length
    match Token.ofBytes? drawn with
    | none => (none, bytes)
    | some token =>
      if taken.contains token then drawFree length taken bytes attempts else (some token, bytes)

/-- Takes a token into use, and tells whether it was free. -/
def reserve (pool : TokenPool) (peer : Endpoint) (token : Token) : Bool × TokenPool :=
  let taken := pool.taken peer
  if taken.contains token then (false, pool)
  else (true, { pool with peers := pool.peers.insert peer (taken ++ [token]) })

/-- Makes up a token for a conversation with `peer` and takes it into use. -/
def generate (pool : TokenPool) (peer : Endpoint) : Except Exhausted Token × TokenPool :=
  let (token?, bytes) := drawFree pool.length (pool.taken peer) pool.bytes tokenAttempts
  let pool := { pool with bytes }
  match token? with
  | some token => (.ok token, (pool.reserve peer token).2)
  | none => (.error .tokens, pool)

/-- Gives a token up. -/
def release (pool : TokenPool) (peer : Endpoint) (token : Token) : TokenPool :=
  match (pool.taken peer).filter (· != token) with
  | [] => { pool with peers := pool.peers.erase peer }
  | rest => { pool with peers := pool.peers.insert peer rest }

/-- A pool of tokens with one to eight bytes. -/
def make (length : Nat) (bytes : Draws UInt8) : TokenPool :=
  { length := max 1 (min length 8), bytes }

end TokenPool

end Coap
