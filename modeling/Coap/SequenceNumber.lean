/-
# Sequence numbers

Notifications are numbered with 24 bits.  The numbers wrap around, so which of two is the
later one is decided by the shorter way around the circle, and only while not too much time
has passed between them.
-/
import Coap.Duration

namespace Coap

/-- A 24-bit number that wraps around. -/
structure SequenceNumber where
  bits : BitVec 24
deriving DecidableEq

namespace SequenceNumber

/-- How many sequence numbers there are. -/
def count : Nat := 16777216

/-- Beyond this time the later arrival counts as the fresher, whatever the numbers. -/
def freshnessWindow : Duration := Duration.ofSeconds 128

/-- The number as a natural number. -/
def toNat (s : SequenceNumber) : Nat := s.bits.toNat

/-- The sequence number of a natural number modulo `count`. -/
def ofNat (n : Nat) : SequenceNumber := ⟨BitVec.ofNat 24 n⟩

/-- The sequence number equal to a 32-bit number, if it fits. -/
def ofUInt32? (v : UInt32) : Option SequenceNumber :=
  if v.toNat < count then some (ofNat v.toNat) else none

/-- A sequence number as an option value. -/
def toUInt32 (s : SequenceNumber) : UInt32 := UInt32.ofNat s.toNat

/-- The sequence number with the given bytes, most significant first. -/
def ofBytes (high mid low : UInt8) : SequenceNumber :=
  ofNat (high.toNat * 65536 + mid.toNat * 256 + low.toNat)

/-- The sum of two sequence numbers, wrapping around. -/
def add (a b : SequenceNumber) : SequenceNumber := ⟨a.bits + b.bits⟩

/-- The number after `s`; zero follows the largest one. -/
def next (s : SequenceNumber) : SequenceNumber := s.add (ofNat 1)

/-- Whether a notification numbered `s`, received `elapsed` after one numbered `previous`,
is the fresher of the two. -/
def isFresherThan (s previous : SequenceNumber) (elapsed : Duration) : Bool :=
  let old := previous.toNat
  let new := s.toNat
  (old < new && new - old < count / 2) || (old > new && old - new > count / 2) ||
    elapsed > freshnessWindow

/-- What is said of a number that is no sequence number. -/
def rangeMessage : String := "value does not fit in 24 bits"

theorem toNat_lt (s : SequenceNumber) : s.toNat < count := s.bits.isLt

@[simp] theorem toNat_ofNat (n : Nat) : (ofNat n).toNat = n % count := by
  simp [ofNat, toNat, count]

@[simp] theorem toNat_add (a b : SequenceNumber) :
    (a.add b).toNat = (a.toNat + b.toNat) % count := by
  simp [add, toNat, BitVec.toNat_add, count]

@[simp] theorem toNat_next (s : SequenceNumber) : s.next.toNat = (s.toNat + 1) % count := by
  simp [next]

end SequenceNumber

end Coap
