/-
# Configuration

The tunables of a node.  The lifetimes usually follow from the transmission parameters;
each can also be set on its own.
-/
import Coap.Block
import Coap.Config.Transmission

namespace Coap

/-- What is reserved in a datagram for header, token and options when a block size is
derived from the size of a link's packets. -/
def messageOverhead : Nat := 64

/-- The tunables of a node. -/
structure Config where
  transmission : Transmission
  /-- How long a confirmable request waits for its response before it is acknowledged. -/
  emptyAckDelay : Duration
  /-- How often the waiting acknowledgements are looked through. -/
  sweepInterval : Duration
  /-- How long confirmable messages are remembered and their IDs kept in use. -/
  exchangeLifetime : Duration
  /-- How long non-confirmable messages are remembered. -/
  nonLifetime : Duration
  /-- The exponent of the largest block that is sent or accepted. -/
  maxBlockExponent : Nat
  /-- The largest request body that is put together, if there is a limit. -/
  maxBody? : Option Nat
  /-- How long a transfer may rest before it is dropped. -/
  transferLifetime : Duration
  /-- The length of generated tokens. -/
  tokenLength : Nat

namespace Config

/-- A configuration with the given transmission parameters and all else as usual. -/
def ofTransmission (t : Transmission) : Config where
  transmission := t
  emptyAckDelay := Duration.ofMillis 1700
  sweepInterval := Duration.ofMillis 100
  exchangeLifetime := t.exchangeLifetime
  nonLifetime := t.nonLifetime
  maxBlockExponent := Coap.maxBlockExponent
  maxBody? := none
  transferLifetime := t.exchangeLifetime
  tokenLength := 4

/-- The configuration of a node that was told nothing else. -/
def standard : Config := ofTransmission .standard

/-- Replaces the transmission parameters and the lifetimes that follow from them. -/
def withTransmission (c : Config) (t : Transmission) : Config :=
  { c with
    transmission := t
    exchangeLifetime := t.exchangeLifetime
    nonLifetime := t.nonLifetime
    transferLifetime := t.exchangeLifetime }

/-- Sets the exponent of the largest block, as far as there are such blocks. -/
def withMaxBlockExponent (c : Config) (exponent : Nat) : Config :=
  { c with maxBlockExponent := min exponent Coap.maxBlockExponent }

/-- Sets the length of generated tokens, from one to eight bytes. -/
def withTokenLength (c : Config) (length : Nat) : Config :=
  { c with tokenLength := max 1 (min length 8) }

/-- Lowers the block size so that a block and what surrounds it fit a packet of `mtu`
bytes. -/
def forMtu (c : Config) (mtu? : Option Nat) : Config :=
  match mtu? with
  | none => c
  | some mtu =>
    let exponent := (Block.exponentForSize? (mtu - messageOverhead)).getD 0
    { c with maxBlockExponent := min c.maxBlockExponent exponent }

/-- The size of the largest block. -/
def maxBlockSize (c : Config) : Nat := Block.sizeOfExponent c.maxBlockExponent

end Config

end Coap
