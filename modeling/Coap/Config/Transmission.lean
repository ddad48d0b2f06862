/-
# Transmission parameters

How often and how long a confirmable message is repeated: the first wait for an
acknowledgement is drawn from a range, every further wait is twice the one before, and
after a number of repetitions the sender gives up.  The times for which a message ID stays
in use follow from these parameters.

The factor that spans the range is a single-precision value.  Products with it are taken in
double precision and rounded to whole nanoseconds.  A factor that is infinite or no number is
accepted like one that is large; only when a wait is computed does it fail.
-/
import Coap.Duration
import Coap.Number.Binary

namespace Coap

namespace Duration

/-- A duration in seconds as a double-precision number. -/
def toDouble (d : Duration) : Rat :=
  let double := BinaryFormat.double.round
  double (double d.seconds + double (double d.subsecNanos / 1000000000))

/-- A double-precision number of seconds to the nearest nanosecond. -/
def ofDouble (q : Rat) : Duration := (roundToEven (q * 1000000000)).toNat

/-- A duration times a factor, in double precision. -/
def scale (d : Duration) (factor : Rat) : Duration :=
  ofDouble (BinaryFormat.double.round (factor * d.toDouble))

end Duration

/-- The longest time a datagram is expected to travel. -/
def maxLatency : Duration := Duration.ofSeconds 100

/-- The time a node may take before it acknowledges. -/
def processingDelay : Duration := Duration.ofSeconds 2

/-- The parameters of a policy as they are given. -/
structure TransmissionParameters where
  ackTimeout : Duration
  randomFactor : BinaryNumber
  maxRetransmit : Nat
deriving DecidableEq

/-- The policy for repeating confirmable messages. -/
structure Transmission where
  ackTimeout : Duration
  randomFactor : Rat
  maxRetransmit : Nat
deriving DecidableEq

/-- Why there is no policy for some parameters. -/
inductive TransmissionFault
  | randomFactor (factor : BinaryNumber)
  | ackTimeout (timeout : Duration)
  | maxRetransmit (count : Nat)
  /-- The parameters are accepted, but no wait can be computed from them. -/
  | noWait
deriving DecidableEq

/-- The wording of a refusal. -/
def TransmissionFault.message : TransmissionFault → String
  | randomFactor x => "Invalid ack_random_factor=" ++ BinaryFormat.single.text x
  | ackTimeout d => "Invalid ack_timeout=" ++ d.text
  | maxRetransmit n => "Invalid max_retransmit=" ++ toString n
  | noWait => "cannot convert float seconds to Duration: value is either too big or NaN"

namespace TransmissionParameters

/-- The most repetitions that can be asked for. -/
def retransmitLimit : Nat := 16

/-- Parameters are accepted if the range of the first wait is not empty, the wait is not zero,
and there are not too many repetitions. -/
def check (p : TransmissionParameters) : Except TransmissionFault Unit :=
  if p.randomFactor.isBelow 1 then .error (.randomFactor p.randomFactor)
  else if p.ackTimeout = 0 then .error (.ackTimeout p.ackTimeout)
  else if p.maxRetransmit > retransmitLimit then .error (.maxRetransmit p.maxRetransmit)
  else .ok ()

/-- The policy that parameters describe, if waits can be computed from their factor. -/
def policy? (p : TransmissionParameters) : Option Transmission :=
  match p.randomFactor with
  | .finite q => some ⟨p.ackTimeout, q, p.maxRetransmit⟩
  | _ => none

end TransmissionParameters

namespace Transmission

/-- The parameters of a node that was told nothing else. -/
def standard : Transmission where
  ackTimeout := Duration.ofSeconds 2
  randomFactor := 3 / 2
  maxRetransmit := 4

/-- The policy for parameters that are accepted. -/
def make (ackTimeout : Duration) (randomFactor : BinaryNumber) (maxRetransmit : Nat) :
    Except TransmissionFault Transmission :=
  let p : TransmissionParameters := ⟨ackTimeout, randomFactor, maxRetransmit⟩
  match p.check with
  | .error fault => .error fault
  | .ok () =>
    match p.policy? with
    | some policy => .ok policy
    | none => .error .noWait

/-- The longest first wait. -/
def maxAckTimeout (t : Transmission) : Duration :=
  if t.randomFactor = 1 then t.ackTimeout else t.ackTimeout.scale t.randomFactor

/-- The longest time from the first to the last transmission of a message. -/
def maxTransmitSpan (t : Transmission) : Duration :=
  Duration.scale (t.ackTimeout * (Nat.pow 2 t.maxRetransmit - 1)) t.randomFactor

/-- How long the ID of a confirmable message stays in use. -/
def exchangeLifetime (t : Transmission) : Duration :=
  t.maxTransmitSpan + maxLatency * 2 + processingDelay

/-- How long the ID of a non-confirmable message stays in use. -/
def nonLifetime (t : Transmission) : Duration := t.maxTransmitSpan + maxLatency

end Transmission

end Coap
