/-
# Binary floating-point numbers

A binary floating-point format holds those rationals that are a whole number of units in
the last place, where the unit is a power of two that grows with the number.  Arithmetic in
the format is exact arithmetic followed by rounding to the nearest such number, and a tie
goes to the one whose last place is even.  So a number of the format is kept as a rational.
A format has four values besides: what is too large for it becomes an infinity of its sign,
what is negative and too small for it a zero that keeps the sign, and one value is no number.
-/

namespace Coap

/-! ## Rounding -/

/-- The whole number nearest to `q`; a tie goes to the even one. -/
def roundToEven (q : Rat) : Int :=
  let below := q.floor
  let rest := q - below
  if rest < 1 / 2 then below
  else if 1 / 2 < rest then below + 1
  else if below % 2 = 0 then below
  else below + 1

/-- The exponent of the largest power of two that does not exceed `|q|`, for `q ≠ 0`. -/
def floorLog2 (q : Rat) : Int :=
  let e : Int := (q.num.natAbs.log2 : Int) - (q.den.log2 : Int)
  if (2 : Rat) ^ e ≤ q.abs then e else e - 1

/-- A binary format: how many binary places a number has, the exponent of the smallest unit
in the last place, and the exponent of the first power of two that is too large. -/
structure BinaryFormat where
  precision : Nat
  minExponent : Int
  limitExponent : Int

/-- A value of a binary format. -/
inductive BinaryNumber
  | finite (q : Rat)
  | negativeZero
  | infinite (negative : Bool)
  | nan
deriving DecidableEq

/-- Whether a value lies below a rational; what is no number does not. -/
def BinaryNumber.isBelow (x : BinaryNumber) (bound : Rat) : Bool :=
  match x with
  | finite q => q < bound
  | negativeZero => 0 < bound
  | infinite negative => negative
  | nan => false

namespace BinaryFormat

/-- The format of 32 bits. -/
def single : BinaryFormat := ⟨24, -149, 128⟩

/-- The format of 64 bits. -/
def double : BinaryFormat := ⟨53, -1074, 1024⟩

/-- The exponent of the unit in the last place of `q`. -/
def unitExponent (f : BinaryFormat) (q : Rat) : Int :=
  max (floorLog2 q - (f.precision - 1)) f.minExponent

/-- The number of the format nearest to `q`. -/
def round (f : BinaryFormat) (q : Rat) : Rat :=
  if q = 0 then 0
  else
    let unit := (2 : Rat) ^ f.unitExponent q
    roundToEven (q / unit) * unit

/-- The value of the format nearest to `q`; the sign of `q` is kept. -/
def nearest (f : BinaryFormat) (q : Rat) : BinaryNumber :=
  let r := f.round q
  if (2 : Rat) ^ f.limitExponent ≤ r.abs then .infinite (q < 0)
  else if r = 0 ∧ q < 0 then .negativeZero
  else .finite r

/-- The value of a format for a decimal, which is first read in double precision. -/
def ofDecimal (f : BinaryFormat) (negative : Bool) (digits places : Nat) : BinaryNumber :=
  let magnitude := double.round (digits / Nat.pow 10 places)
  if negative ∧ magnitude = 0 then .negativeZero
  else f.nearest (if negative then -magnitude else magnitude)

/-! ## Shortest decimal text -/

/-- The exponent of the largest power of ten that does not exceed a positive `q`. -/
def floorLog10 (q : Rat) : Int :=
  if 1 ≤ q then ((Nat.toDigits 10 q.floor.toNat).length : Int) - 1
  else -((Nat.toDigits 10 ((1 / q).ceil.toNat - 1)).length : Int)

/-- Of two neighbours on the decimal grid with `digits` significant digits around a positive
`q`, the nearer one of those that read back as `q`, or the upper one if both are as near: its
digits as a number, and the exponent of its last digit.  The upper neighbour may be a power of
ten, which then has a digit too many. -/
def onGrid? (f : BinaryFormat) (q : Rat) (digits : Nat) : Option (Nat × Int) :=
  let e := floorLog10 q - (digits - 1)
  let unit := (10 : Rat) ^ e
  let low := (q / unit).floor.toNat
  let reads := fun n : Nat => f.round (n * unit) == q
  let highIsNearer := (low + 1 : Nat) * unit - q ≤ q - low * unit
  match reads low, reads (low + 1) with
  | true, true => some (if highIsNearer then low + 1 else low, e)
  | true, false => some (low, e)
  | false, true => some (low + 1, e)
  | false, false => none

/-- A positive number of digits and the exponent of the last one, when a zero at the end is
left out. -/
def dropZero (x : Nat × Int) : Nat × Int :=
  if x.1 % 10 = 0 then (x.1 / 10, x.2 + 1) else x

/-- The fewest digits that read back as a positive `q`, trying the numbers of digits in
turn; seventeen digits are enough for either format.  Only a power of ten that was rounded up
to can end in a zero, as a shorter number would have been found before, and it was found with
one digit. -/
def shortest (f : BinaryFormat) (q : Rat) : Nat × Int :=
  dropZero (((List.range 17).findSome? fun i => f.onGrid? q (i + 1)).getD (0, 0))

/-- Writes `digits · 10 ^ e` without an exponent. -/
def positional (digits : Nat) (e : Int) : String :=
  let text := Nat.toDigits 10 digits
  let places := (-e).toNat
  if places = 0 then String.ofList (text ++ List.replicate e.toNat '0')
  else
    let padded := List.replicate (places + 1 - text.length) '0' ++ text
    String.ofList (padded.take (padded.length - places) ++ '.' ::
      padded.drop (padded.length - places))

/-- A value of the format in the fewest digits that read back, without an exponent. -/
def text (f : BinaryFormat) : BinaryNumber → String
  | .finite q =>
    if q = 0 then "0"
    else
      let (digits, e) := f.shortest q.abs
      (if q < 0 then "-" else "") ++ positional digits e
  | .negativeZero => "-0"
  | .infinite true => "-inf"
  | .infinite false => "inf"
  | .nan => "NaN"

end BinaryFormat

end Coap
