/-
# The form of a datagram

What a datagram has to look like, and what message it carries, said without a reader: which
bytes form a run of options (`OptionRun`), which of these options a message keeps (`Keeps`),
and from these `Admissible`, the datagrams that hold a message, and `Carries`, the message
they hold.
-/
import Coap.Datagram.Basic
import Coap.Proofs.Option.Spelling

namespace Coap.Datagram

/-! ## Options on the wire -/

/-- The nibble and the bytes after it that announce an amount.  No amount has nibble 15. -/
inductive Amount : Nat → Bytes → Nat → Prop
  | plain {n : Nat} (h : n ≤ 12) : Amount n [] n
  | byte (b : UInt8) : Amount 13 [b] (b.toNat + 13)
  | word (high low : UInt8) : Amount 14 [high, low] (high.toNat * 256 + low.toNat + 269)

/-- `OptionRun previous bytes options tail`: after an option with number `previous`, the
bytes are these options up to the end, or up to a marker with `tail` behind it. -/
inductive OptionRun : Nat → Bytes → List RawOption → Option Bytes → Prop
  | finish (previous : Nat) : OptionRun previous [] [] none
  | marker (previous : Nat) (payload : Bytes) :
      OptionRun previous (payloadMarker :: payload) [] (some payload)
  | option {previous delta : Nat} {head : UInt8} {deltaBytes lengthBytes value rest : Bytes}
      {options : List RawOption} {tail : Option Bytes}
      (hdelta : Amount (head.toNat / 16) deltaBytes delta)
      (hlength : Amount (head.toNat % 16) lengthBytes value.length)
      (hnumber : previous + delta ≤ 65535)
      (hrest : OptionRun (previous + delta) rest options tail) :
      OptionRun previous (head :: (deltaBytes ++ lengthBytes ++ value ++ rest))
        (⟨.ofNat (previous + delta), value⟩ :: options) tail

/-! ## Options in a message -/

/-- Why an option cannot join the entries that were kept before it. -/
inductive Unacceptable (kept : List OptionEntry) (raw : RawOption) : Prop
  | malformed (h : OptionValue.Malformed raw.number raw.bytes)
  /-- A further occurrence of an option that may occur only once, whatever its value. -/
  | repeated (hsingle : ¬ raw.number.isRepeatable) (h : ∃ x ∈ kept, x.number = raw.number)

/-- What an option adds to the entries `kept`: an entry with the value it denotes, or nothing,
if it is unacceptable and also if its value goes without saying. -/
inductive Yields (kept : List OptionEntry) (raw : RawOption) : List OptionEntry → Prop
  | entry {value : OptionValue} (hgood : ¬ Unacceptable kept raw)
      (hvalue : OptionValue.Denotes raw.number raw.bytes value)
      (hsaid : ¬ OptionValue.IsImplied raw.number value) : Yields kept raw [⟨raw.number, value⟩]
  | nothing (hout : Unacceptable kept raw ∨ ∃ value,
      OptionValue.Denotes raw.number raw.bytes value ∧ OptionValue.IsImplied raw.number value) :
      Yields kept raw []

/-- `Keeps kept options entries`: after the entries `kept`, the options make these further
entries of a message, in the order in which they came. -/
inductive Keeps : List OptionEntry → List RawOption → List OptionEntry → Prop
  | done (kept : List OptionEntry) : Keeps kept [] []
  | next {kept new entries : List OptionEntry} {raw : RawOption} {options : List RawOption}
      (hfirst : Yields kept raw new) (hrest : Keeps (kept ++ new) options entries) :
      Keeps kept (raw :: options) (new ++ entries)

/-- No option that has to be understood is unacceptable where it stands. -/
def CriticalAcceptable (kept : List OptionEntry) (options : List RawOption) : Prop :=
  ∀ before raw after entries, options = before ++ raw :: after → Keeps kept before entries →
    raw.number.isCritical → ¬ Unacceptable (kept ++ entries) raw

/-! ## Datagrams -/

/-- The datagrams that hold a message.  There are four bytes of header with version 1 and a
token of at most eight bytes.  Either the code is that of an empty message, which is not
sent as a non-confirmable one, and nothing else matters; or the token is followed by a run
of options, and in a request all of those that must be understood are acceptable. -/
inductive Admissible : Bytes → Prop
  | bare {first high low : UInt8} {rest : Bytes} (hversion : first.toNat / 64 = 1)
      (htoken : first.toNat % 16 ≤ 8)
      (htype : MessageType.ofBits (first.toNat / 16) ≠ .nonConfirmable) :
      Admissible (first :: 0 :: high :: low :: rest)
  | full {first code high low : UInt8} {token body : Bytes} {options : List RawOption}
      {tail : Option Bytes} (hversion : first.toNat / 64 = 1) (htoken : first.toNat % 16 ≤ 8)
      (hlength : token.length = first.toNat % 16) (hcode : code ≠ 0)
      (hbody : OptionRun 0 body options tail)
      (hcritical : (⟨code⟩ : Code).isRequest → CriticalAcceptable [] options) :
      Admissible (first :: code :: high :: low :: (token ++ body))

/-- The message in a datagram: what the header says, the token as it stands, the entries
that the options make, in their order, and what follows the marker. -/
inductive Carries : Bytes → Message → Prop
  | bare {first high low : UInt8} {rest : Bytes} (hversion : first.toNat / 64 = 1)
      (htoken : first.toNat % 16 ≤ 8)
      (htype : MessageType.ofBits (first.toNat / 16) ≠ .nonConfirmable) :
      Carries (first :: 0 :: high :: low :: rest)
        (.bare (.ofBits (first.toNat / 16)) (Bytes.toUInt16 high low))
  | full {first code high low : UInt8} {token : Token} {body : Bytes}
      {options : List RawOption} {tail : Option Bytes} {kept : Options}
      (hversion : first.toNat / 64 = 1) (hlength : token.bytes.length = first.toNat % 16)
      (hcode : code ≠ 0) (hbody : OptionRun 0 body options tail)
      (hkept : Keeps [] options kept.entries)
      (hcritical : (⟨code⟩ : Code).isRequest → CriticalAcceptable [] options) :
      Carries (first :: code :: high :: low :: (token.bytes ++ body))
        { type := .ofBits (first.toNat / 16), code := ⟨code⟩, id := Bytes.toUInt16 high low
          token, options := kept, payload := tail.getD [] }

end Coap.Datagram
