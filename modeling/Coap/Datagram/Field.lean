/-
# Option headers

An option starts with one byte that holds two nibbles: by how much its number exceeds the
one before, and how long its value is.  A nibble up to twelve is the amount itself; 13 and
14 announce one or two more bytes, which count on from 13 and from 269; 15 is reserved.
Writing uses the shortest of the three forms.
-/
import Coap.Bytes

namespace Coap.Datagram

/-- The byte that ends the options and starts the payload. -/
def payloadMarker : UInt8 := 0xFF

/-- What is wrong with the form of a datagram. -/
inductive FormatFault
  | tooShort
  | unsupportedVersion (version : Nat)
  | invalidTokenLength (length : Nat)
  | truncatedToken
  | emptyNonConfirmable
  | truncatedOption
  | reservedOptionNibble
  | optionNumberOverflow
deriving DecidableEq

/-- The wording of a format fault. -/
def FormatFault.message : FormatFault → String
  | tooShort => "datagram shorter than the 4 byte header"
  | unsupportedVersion v => "unsupported version " ++ toString v
  | invalidTokenLength n => "token length " ++ toString n ++ " exceeds 8"
  | truncatedToken => "token runs past the end of the datagram"
  | emptyNonConfirmable => "non-confirmable empty message"
  | truncatedOption => "option runs past the end of the datagram"
  | reservedOptionNibble => "reserved option nibble 15"
  | optionNumberOverflow => "option number exceeds 65535"

/-- The name of a format fault in diagnostics. -/
def FormatFault.name : FormatFault → String
  | tooShort => "TooShort"
  | unsupportedVersion v => "UnsupportedVersion(" ++ toString v ++ ")"
  | invalidTokenLength n => "InvalidTokenLength(" ++ toString n ++ ")"
  | truncatedToken => "TruncatedToken"
  | emptyNonConfirmable => "EmptyNonConfirmable"
  | truncatedOption => "TruncatedOption"
  | reservedOptionNibble => "ReservedOptionNibble"
  | optionNumberOverflow => "OptionNumberOverflow"

/-! ## Writing -/

/-- The nibble that announces an amount. -/
def nibbleOf (amount : Nat) : Nat :=
  if amount ≤ 12 then amount else if amount ≤ 268 then 13 else 14

/-- The bytes that follow the nibble of an amount. -/
def extensionOf (amount : Nat) : Bytes :=
  if amount ≤ 12 then []
  else if amount ≤ 268 then [UInt8.ofNat (amount - 13)]
  else Bytes.ofUInt16 (UInt16.ofNat (amount - 269))

/-- The header of an option whose number exceeds the one before by `delta` and whose value
has `length` bytes. -/
def optionHeader (delta length : Nat) : Bytes :=
  UInt8.ofNat (nibbleOf delta * 16 + nibbleOf length) :: (extensionOf delta ++ extensionOf length)

/-! ## Reading -/

/-- The amount a nibble announces, given the bytes that follow, and the bytes after it. -/
def readAmount (nibble : Nat) (bytes : Bytes) : Except FormatFault (Nat × Bytes) :=
  if nibble ≤ 12 then .ok (nibble, bytes)
  else if nibble = 13 then
    match bytes with
    | b :: rest => .ok (b.toNat + 13, rest)
    | [] => .error .truncatedOption
  else if nibble = 14 then
    match bytes with
    | high :: low :: rest => .ok ((Bytes.toUInt16 high low).toNat + 269, rest)
    | _ => .error .truncatedOption
  else .error .reservedOptionNibble

theorem length_of_readAmount {nibble amount : Nat} {bytes rest : Bytes}
    (h : readAmount nibble bytes = .ok (amount, rest)) : rest.length ≤ bytes.length := by
  unfold readAmount at h
  split at h
  · cases h
    exact Nat.le_refl _
  · split at h
    · split at h
      · cases h
        simp
      · cases h
    · split at h
      · split at h
        · cases h
          simp only [List.length_cons]
          omega
        · cases h
      · cases h

/-- One step of reading the options of a datagram. -/
inductive OptionStep
  /-- The options are over, and the payload follows. -/
  | finish (payload : Bytes)
  /-- An option with this number and value, and the bytes after it. -/
  | option (number : Nat) (value rest : Bytes)
deriving DecidableEq

/-- Reads the next option after one with number `previous`. -/
def nextOption (previous : Nat) : Bytes → Except FormatFault OptionStep
  | [] => .ok (.finish [])
  | b :: rest =>
    if b = payloadMarker then .ok (.finish rest)
    else do
      let (delta, rest) ← readAmount (b.toNat / 16) rest
      let (length, rest) ← readAmount (b.toNat % 16) rest
      if previous + delta > 65535 then .error .optionNumberOverflow
      else if rest.length < length then .error .truncatedOption
      else .ok (.option (previous + delta) (rest.take length) (rest.drop length))

theorem length_of_nextOption {previous number : Nat} {bytes value rest : Bytes}
    (h : nextOption previous bytes = .ok (.option number value rest)) :
    rest.length < bytes.length := by
  cases bytes with
  | nil => cases h
  | cons b tail =>
    simp only [nextOption] at h
    split at h
    · cases h
    · cases hd : readAmount (b.toNat / 16) tail with
      | error f => simp [hd, bind, Except.bind] at h
      | ok d =>
        obtain ⟨delta, afterDelta⟩ := d
        simp only [hd, bind, Except.bind] at h
        cases hl : readAmount (b.toNat % 16) afterDelta with
        | error f => simp [hl] at h
        | ok l =>
          obtain ⟨length, afterLength⟩ := l
          simp only [hl] at h
          have h1 := length_of_readAmount hd
          have h2 := length_of_readAmount hl
          split at h
          · cases h
          · split at h
            · cases h
            · cases h
              simp only [List.length_drop, List.length_cons]
              omega

end Coap.Datagram
