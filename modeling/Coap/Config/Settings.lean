/-
# Settings

A configuration starts as the standard one and is changed by one setting after the other.
-/
import Coap.Config.Basic

namespace Coap.Config

/-- What can be set. -/
inductive Setting
  | transmission (t : Transmission)
  | emptyAckDelay (d : Duration)
  | sweepInterval (d : Duration)
  | exchangeLifetime (d : Duration)
  | nonLifetime (d : Duration)
  | maxBlockExponent (exponent : Nat)
  | maxBody (limit : Nat)
  | transferLifetime (d : Duration)
  | tokenLength (length : Nat)
  | mtu (mtu? : Option Nat)

/-- A configuration after one more setting. -/
def set (c : Config) : Setting → Config
  | .transmission t => c.withTransmission t
  | .emptyAckDelay d => { c with emptyAckDelay := d }
  | .sweepInterval d => { c with sweepInterval := d }
  | .exchangeLifetime d => { c with exchangeLifetime := d }
  | .nonLifetime d => { c with nonLifetime := d }
  | .maxBlockExponent exponent => c.withMaxBlockExponent exponent
  | .maxBody limit => { c with maxBody? := some limit }
  | .transferLifetime d => { c with transferLifetime := d }
  | .tokenLength length => c.withTokenLength length
  | .mtu mtu? => c.forMtu mtu?

/-- The configuration that settings make, in their order. -/
def ofSettings (settings : List Setting) : Config := settings.foldl set standard

end Coap.Config
