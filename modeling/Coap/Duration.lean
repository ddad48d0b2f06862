/-
# Time

Durations and points in time are counted in nanoseconds.
-/

namespace Coap

/-- A length of time in nanoseconds. -/
abbrev Duration := Nat

/-- A point in time, as the nanoseconds since the clock was started. -/
abbrev Instant := Nat

namespace Duration

/-- Nanoseconds in a second. -/
def nanosPerSecond : Nat := 1000000000

/-- A number of milliseconds. -/
def ofMillis (ms : Nat) : Duration := ms * 1000000

/-- A number of seconds. -/
def ofSeconds (s : Nat) : Duration := s * nanosPerSecond

/-- The whole seconds of a duration. -/
def seconds (d : Duration) : Nat := d / nanosPerSecond

/-- The nanoseconds of a duration beyond its whole seconds. -/
def subsecNanos (d : Duration) : Nat := d % nanosPerSecond

/-- Drops the zeros at the end of a list of digits. -/
def dropTrailingZeros (digits : List Char) : List Char :=
  (digits.reverse.dropWhile (· == '0')).reverse

/-- A number of units with a fraction of `width` digits, of which trailing zeros are left
out. -/
def decimalText (whole fraction width : Nat) : String :=
  let digits := Nat.toDigits 10 fraction
  let padded := List.replicate (width - digits.length) '0' ++ digits
  match dropTrailingZeros padded with
  | [] => toString whole
  | kept => toString whole ++ "." ++ String.ofList kept

/-- A duration in the largest unit of which it holds at least one. -/
def text (d : Duration) : String :=
  if d ≥ 1000000000 then decimalText (d / 1000000000) (d % 1000000000) 9 ++ "s"
  else if d ≥ 1000000 then decimalText (d / 1000000) (d % 1000000) 6 ++ "ms"
  else if d ≥ 1000 then decimalText (d / 1000) (d % 1000) 3 ++ "µs"
  else toString d ++ "ns"

end Duration

/-- The granularity of the clock: a timer fires at the first whole millisecond that is not
before its deadline. -/
def Instant.tick (t : Instant) : Instant := (t + 999999) / 1000000 * 1000000

namespace Instant

variable {t u : Nat}

theorem le_tick (t : Nat) : t ≤ tick t := by
  show t ≤ (t + 999999) / 1000000 * 1000000
  omega

theorem tick_le (t : Nat) : tick t ≤ t + 999999 := Nat.div_mul_le_self ..

theorem tick_mono (h : t ≤ u) : tick t ≤ tick u :=
  Nat.mul_le_mul_right _ (Nat.div_le_div_right (Nat.add_le_add_right h _))

theorem dvd_tick (t : Nat) : 1000000 ∣ tick t := Nat.dvd_mul_left ..

/-- The tick after a time that is just over a tick. -/
theorem tick_eq_add (h : 1000000 ∣ t + 999999) : tick t = t + 999999 := Nat.div_mul_cancel h

/-- Ticks can be counted from any tick on. -/
theorem tick_add (h : 1000000 ∣ t) (d : Nat) : tick (t + d) = t + tick d := by
  obtain ⟨k, rfl⟩ := h
  show (1000000 * k + d + 999999) / 1000000 * 1000000 =
    1000000 * k + (d + 999999) / 1000000 * 1000000
  omega

end Instant

end Coap
