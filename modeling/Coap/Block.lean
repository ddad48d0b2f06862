/-
# Blocks

A body too large for one datagram travels in blocks of a power of two bytes.  A block is
described by its number, whether more blocks follow, and the exponent of its size; the
three are packed into one number, the value of a Block1 or Block2 option.
-/
import Coap.Option.Value

namespace Coap

/-- The largest exponent that stands for a block size, of 1024 bytes. -/
def maxBlockExponent : Nat := 6

/-- The place of one block within a body. -/
structure Block where
  number : Nat
  more : Bool
  exponent : Nat
deriving DecidableEq

namespace Block

/-- The block size an exponent stands for. -/
def sizeOfExponent (exponent : Nat) : Nat := Nat.pow 2 (exponent + 4)

/-- How many block numbers there are. -/
def numberCount : Nat := 1048576

/-- The size of a block in bytes. -/
def size (b : Block) : Nat := sizeOfExponent b.exponent

/-- Where the block starts within the body. -/
def offset (b : Block) : Nat := b.number * b.size

/-- The largest exponent whose block size does not exceed `size`; there is none below the
smallest block size. -/
def exponentForSize? (size : Nat) : Option Nat :=
  if size < 16 then none else some (min (size.log2 - 4) maxBlockExponent)

/-- The block with the given parts, if they fit an option value. -/
def make? (number : Nat) (more : Bool) (exponent : Nat) : Except OptionFault Block :=
  if exponent > maxBlockExponent ∨ number ≥ numberCount then .error (.reservedBlockSize .block2)
  else .ok ⟨number, more, exponent⟩

/-- The option value of a block: the number above the flag above the exponent, in 32 bits. -/
def toUInt32 (b : Block) : UInt32 :=
  UInt32.ofNat (b.number * 16 + (if b.more then 8 else 0) + b.exponent % 8)

/-- The block an option value describes. -/
def ofUInt32? (v : UInt32) : Except OptionFault Block :=
  if v.toNat % 8 = 7 ∨ v.toNat ≥ numberCount * 16 then .error (.reservedBlockSize .block2)
  else .ok ⟨v.toNat / 16, v.toNat / 8 % 2 == 1, v.toNat % 8⟩

/-- The written form of a block. -/
def text (b : Block) : String :=
  toString b.number ++ (if b.more then "+" else "") ++ "/" ++ toString b.size

end Block

end Coap
