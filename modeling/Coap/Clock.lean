/-
# The clock

A node does some things by itself when their time has come.  Its state knows the next such
time; letting time pass means to go from one of these times to the next, doing what is due,
until the wanted time is reached.
-/
import Coap.Duration

namespace Coap.Clock

/-- Lets time pass from `now` to `target`, both ends included except what is already done at
`now`: `next` tells when something is due, and `fire` does everything due at a time.  Time
never stands still between two firings. -/
def advance {σ : Type} (next : σ → Instant) (fire : Instant → σ → σ) (target now : Instant)
    (s : σ) : σ :=
  let due : Nat := max (now + 1) (next s)
  if _h : due ≤ target then advance next fire target due (fire due s) else s
termination_by target - now
decreasing_by
  have : now + 1 ≤ due := Nat.le_max_left _ _
  omega

/-- The earlier of two times, where there may be none. -/
def earlier (t : Instant) : Option Instant → Instant
  | none => t
  | some u => min t u

/-- The earliest of several times. -/
def earliest? (times : List Instant) : Option Instant := times.min?

end Coap.Clock
