/-
# Option values

A value is empty, a string of bytes, a text or an unsigned number.  There are two ways to
obtain a value for an option, and both enforce what the registry says about it: reading the
bytes of a datagram (`OptionValue.decode`) and checking a value made in memory
(`OptionValue.validateFor`).  `OptionValue.bytes` writes a value; numbers take their
shortest form.
-/
import Coap.Bytes
import Coap.Option.Registry
import Coap.Text.Quoted

namespace Coap

/-- A typed option value. -/
inductive OptionValue
  | empty
  | octets (bytes : Bytes)
  | text (s : String)
  | unsigned (v : UInt32)
deriving DecidableEq

/-- Why a value cannot stand for an option. -/
inductive OptionFault
  | unrecognized (number : OptionNumber)
  | wrongFormat (number : OptionNumber) (expected : OptionFormat)
  | length (number : OptionNumber) (length min max : Nat)
  | invalidEncoding (number : OptionNumber)
  | impliedValue (number : OptionNumber)
  | notRepeatable (number : OptionNumber)
  | reservedBlockSize (number : OptionNumber)
deriving DecidableEq

/-- The wording of an option fault. -/
def OptionFault.message : OptionFault → String
  | unrecognized n => "option number " ++ toString n.toNat ++ " is not recognized"
  | wrongFormat n expected => "option " ++ n.text ++ " requires a " ++ expected.name ++ " value"
  | length n l min max =>
    "option " ++ n.text ++ " has length " ++ toString l ++ ", permitted range is " ++
      toString min ++ "..=" ++ toString max
  | invalidEncoding n => "option " ++ n.text ++ " is not valid UTF-8"
  | impliedValue n => "option " ++ n.text ++ " carries its default value"
  | notRepeatable n => "option " ++ n.text ++ " is not repeatable"
  | reservedBlockSize n => "option " ++ n.text ++ " carries a reserved block size"

namespace OptionValue

/-! ## Views -/

/-- The number a value holds, if it is one. -/
def unsigned? : OptionValue → Option UInt32
  | unsigned v => some v
  | _ => none

/-- The text a value holds, if it is one. -/
def text? : OptionValue → Option String
  | text s => some s
  | _ => none

/-- The bytes a value holds, if it is a string of bytes. -/
def octets? : OptionValue → Option Bytes
  | octets b => some b
  | _ => none

/-- The format of a value. -/
def format : OptionValue → OptionFormat
  | empty => .empty
  | octets _ => .octets
  | text _ => .text
  | unsigned _ => .unsigned

/-- The form of a value in diagnostics. -/
def describe : OptionValue → String
  | empty => "Empty"
  | octets b => "Opaque([" ++ String.intercalate ", " (b.map fun x => toString x.toNat) ++ "])"
  | text s => "String(" ++ Text.quoted s ++ ")"
  | unsigned v => "UInt(" ++ toString v.toNat ++ ")"

/-! ## Writing -/

/-- How many bytes the shortest form of a number takes. -/
def unsignedLength (v : UInt32) : Nat :=
  if v.toNat = 0 then 0 else v.toNat.log2 / 8 + 1

/-- How many bytes a value takes in a datagram. -/
def encodedLength : OptionValue → Nat
  | empty => 0
  | octets b => b.length
  | text s => s.utf8ByteSize
  | unsigned v => unsignedLength v

/-- The bytes of a value in a datagram. -/
def bytes : OptionValue → Bytes
  | empty => []
  | octets b => b
  | text s => Bytes.ofString s
  | unsigned v => Bytes.ofUInt32 v

/-! ## Checking -/

/-- An encoded value has to have a permitted length. -/
def checkLength (d : OptionDefinition) (length : Nat) : Except OptionFault Unit :=
  if length < d.minLength ∨ d.maxLength < length then
    .error (.length d.number length d.minLength d.maxLength)
  else .ok ()

/-- The value that goes without saying is not said, and block sizes with exponent seven are
reserved. -/
def checkMeaning (d : OptionDefinition) : OptionValue → Except OptionFault Unit
  | unsigned v =>
    if d.implied? = some v then .error (.impliedValue d.number)
    else if (d.number = .block1 ∨ d.number = .block2) ∧ v.toNat % 8 = 7 then
      .error (.reservedBlockSize d.number)
    else .ok ()
  | _ => .ok ()

/-- Reads bytes in a given format. -/
def read (d : OptionDefinition) (raw : Bytes) : Except OptionFault OptionValue :=
  match d.format with
  | .empty => .ok empty
  | .octets => .ok (octets raw)
  | .text =>
    match Bytes.toString? raw with
    | some s => .ok (text s)
    | none => .error (.invalidEncoding d.number)
  | .unsigned => .ok (unsigned (UInt32.ofNat (Bytes.toNat raw)))

/-- The value an option has when a datagram gives it the bytes `raw`. -/
def decode (n : OptionNumber) (raw : Bytes) : Except OptionFault OptionValue :=
  match n.definition? with
  | none => .error (.unrecognized n)
  | some d => do
    checkLength d raw.length
    let value ← read d raw
    checkMeaning d value
    return value

/-- Whether a value made in memory may stand for an option. -/
def validateFor (value : OptionValue) (n : OptionNumber) : Except OptionFault Unit :=
  match n.definition? with
  | none => .error (.unrecognized n)
  | some d =>
    if value.format = d.format then do
      checkLength d value.encodedLength
      checkMeaning d value
    else .error (.wrongFormat n d.format)

end OptionValue

end Coap
