/-
# Reading options in place

A reader of options leaves the datagram whole: it keeps the place of the next byte, and the
number of the last option in 32 bits.  Each call goes on where the one before ended.  Two things
would keep a call from answering at all, and are told apart from the faults of a datagram: that
it asks for a byte which is not there, and that the number outgrows its 32 bits.
-/
import Coap.Datagram.Basic

namespace Coap.Datagram

/-- What keeps a call from answering. -/
inductive Misstep
  /-- A byte, or a range of bytes, is asked for that is not there. -/
  | outOfBounds
  /-- The option number does not fit 32 bits. -/
  | overflow
deriving DecidableEq

/-- The state of a reader between two calls. -/
structure OptionReader where
  bytes : Bytes
  position : Nat
  number : UInt32
  finished : Bool
deriving DecidableEq

namespace OptionReader

/-- What a call answers: an option, that there are no more, or a fault of the datagram. -/
abbrev Answer := Except FormatFault (Option RawOption)

/-- A reader of the options that begin at a place of a datagram. -/
def start (bytes : Bytes) (position : Nat) : OptionReader := ⟨bytes, position, 0, false⟩

/-- The bytes from the next one on. -/
def remaining (r : OptionReader) : Bytes := r.bytes.drop r.position

/-- The reader some bytes further on. -/
def advance (r : OptionReader) (n : Nat) : OptionReader := { r with position := r.position + n }

@[simp] theorem bytes_advance (r : OptionReader) (n : Nat) : (r.advance n).bytes = r.bytes := rfl

@[simp] theorem position_advance (r : OptionReader) (n : Nat) :
    (r.advance n).position = r.position + n := rfl

@[simp] theorem number_advance (r : OptionReader) (n : Nat) : (r.advance n).number = r.number := rfl

@[simp] theorem finished_advance (r : OptionReader) (n : Nat) :
    (r.advance n).finished = r.finished := rfl

@[simp] theorem remaining_advance (r : OptionReader) (n : Nat) :
    (r.advance n).remaining = r.remaining.drop n := List.drop_drop.symm

/-- The byte at a place, which has to be there. -/
def byteAt (r : OptionReader) (place : Nat) : Except Misstep UInt8 :=
  match r.bytes[place]? with
  | some b => .ok b
  | none => .error .outOfBounds

/-- The bytes between two places, which have to be there. -/
def slice (r : OptionReader) (first last : Nat) : Except Misstep Bytes :=
  if first ≤ last ∧ last ≤ r.bytes.length then .ok ((r.bytes.drop first).take (last - first))
  else .error .outOfBounds

/-- Adds a gap to the number of the last option. -/
def addGap (r : OptionReader) (gap : Nat) : Except Misstep OptionReader :=
  let number := r.number.toNat + gap
  if number < UInt32.size then .ok { r with number := .ofNat number } else .error .overflow

/-- The amount a nibble announces, and the reader behind the bytes that belong to it.  A reader
that does not find all of them stays where it is. -/
def readAmount (r : OptionReader) (nibble : Nat) : Except FormatFault Nat × OptionReader :=
  if nibble ≤ 12 then (.ok nibble, r)
  else if nibble = 13 then
    match r.bytes[r.position]? with
    | some b => (.ok (b.toNat + 13), r.advance 1)
    | none => (.error .truncatedOption, r)
  else if nibble = 14 then
    match r.bytes[r.position]?, r.bytes[r.position + 1]? with
    | some high, some low => (.ok ((Bytes.toUInt16 high low).toNat + 269), r.advance 2)
    | _, _ => (.error .truncatedOption, r)
  else (.error .reservedOptionNibble, r)

/-- The option whose gap and length are known and whose value comes next. -/
def readValue (r : OptionReader) (gap length : Nat) : Except Misstep (Answer × OptionReader) := do
  let r ← r.addGap gap
  if 65535 < r.number.toNat then .ok (.error .optionNumberOverflow, r)
  else
    let finish := r.position + length
    if r.bytes.length < finish then .ok (.error .truncatedOption, r)
    else do
      let value ← r.slice r.position finish
      .ok (.ok (some ⟨.ofNat r.number.toNat, value⟩), r.advance length)

/-- The option whose first byte was `head`. -/
def readOption (r : OptionReader) (head : UInt8) : Except Misstep (Answer × OptionReader) :=
  match r.readAmount (head.toNat / 16) with
  | (.error fault, r) => .ok (.error fault, r)
  | (.ok gap, r) =>
    match r.readAmount (head.toNat % 16) with
    | (.error fault, r) => .ok (.error fault, r)
    | (.ok length, r) => r.readValue gap length

/-- One call: the next option, if there is one.  After the last one, and after a marker, the
reader stays finished. -/
def next (r : OptionReader) : Except Misstep (Answer × OptionReader) :=
  if r.finished ∨ r.bytes.length ≤ r.position then .ok (.ok none, { r with finished := true })
  else do
    let head ← r.byteAt r.position
    let r := r.advance 1
    if head = payloadMarker then .ok (.ok none, { r with finished := true })
    else r.readOption head

end OptionReader

end Coap.Datagram
