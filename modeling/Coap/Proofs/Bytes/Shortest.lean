/-
# The shortest form of a number

A number travels as its bytes in network order without leading zeros.  Reading takes any
number of leading zeros, so many byte strings denote one number, and writing picks the
shortest of them: what is written is what was read, less its leading zeros.
-/
import Coap.Option.Value
import Mathlib.Tactic.Linarith
import Mathlib.Tactic.Ring

namespace Coap.Bytes

/-! ## The number of a byte string -/

/-- The first byte of a string counts most. -/
theorem foldl_toNat (bytes : Bytes) (acc : Nat) :
    bytes.foldl (fun acc byte => acc * 256 + byte.toNat) acc
      = acc * 256 ^ bytes.length + toNat bytes := by
  induction bytes generalizing acc with
  | nil => simp [toNat]
  | cons b rest ih =>
    rw [toNat, List.foldl_cons, List.foldl_cons, ih, ih, List.length_cons, Nat.pow_succ]
    ring

/-- The first byte is the most significant one. -/
theorem toNat_cons (b : UInt8) (rest : Bytes) :
    toNat (b :: rest) = b.toNat * 256 ^ rest.length + toNat rest := by
  rw [toNat, List.foldl_cons, foldl_toNat]
  ring

/-- A byte string stands for a number with as many digits. -/
theorem toNat_lt (bytes : Bytes) : toNat bytes < 256 ^ bytes.length := by
  induction bytes with
  | nil => exact Nat.one_pos
  | cons b rest ih =>
    rw [toNat_cons, List.length_cons, Nat.pow_succ]
    have hb : b.toNat + 1 ≤ 256 := b.toNat_lt
    have hmul := Nat.mul_le_mul_right (256 ^ rest.length) hb
    linarith

/-- A byte string without leading zeros denotes a number that needs all its bytes. -/
theorem pow_le_toNat {bytes : Bytes} (hne : bytes ≠ []) (hz : bytes.head? ≠ some 0) :
    256 ^ (bytes.length - 1) ≤ toNat bytes := by
  cases bytes with
  | nil => exact absurd rfl hne
  | cons b rest =>
    -- the first byte alone contributes a power of 256
    have hb : 1 ≤ b.toNat := by
      rcases Nat.eq_zero_or_pos b.toNat with h | h
      · exact absurd (congrArg some (UInt8.toNat_inj.mp h)) hz
      · exact h
    rw [toNat_cons, List.length_cons, Nat.add_sub_cancel]
    have hmul := Nat.mul_le_mul_right (256 ^ rest.length) hb
    linarith

/-- Leading zeros do not count. -/
theorem toNat_dropWhile (bytes : Bytes) : toNat (bytes.dropWhile (· == 0)) = toNat bytes := by
  induction bytes with
  | nil => rfl
  | cons b rest ih =>
    by_cases hb : b = 0
    · rw [List.dropWhile_cons_of_pos (by simpa using hb), ih, toNat_cons, hb]
      simp
    · rw [List.dropWhile_cons_of_neg (by simpa using hb)]

/-- Without the zeros in front, the first byte is not zero. -/
theorem head?_dropWhile_ne (bytes : Bytes) : (bytes.dropWhile (· == 0)).head? ≠ some 0 := by
  induction bytes with
  | nil => simp
  | cons b rest ih =>
    by_cases hb : b = 0
    · rw [List.dropWhile_cons_of_pos (by simpa using hb)]
      exact ih
    · rw [List.dropWhile_cons_of_neg (by simpa using hb)]
      simpa using hb

/-- Where there are no zeros in front, nothing is left out. -/
theorem dropWhile_eq_self {bytes : Bytes} (hz : bytes.head? ≠ some 0) :
    bytes.dropWhile (· == 0) = bytes := by
  cases bytes with
  | nil => rfl
  | cons b rest =>
    have hb : b ≠ 0 := fun h => hz (congrArg some h)
    rw [List.dropWhile_cons_of_neg (by simpa using hb)]

/-! ## One number, one shortest form -/

/-- Strings of one length with the same number are the same. -/
theorem eq_of_toNat_eq_of_length_eq {a b : Bytes} (hlen : a.length = b.length)
    (h : toNat a = toNat b) : a = b := by
  induction a generalizing b with
  | nil => exact (List.length_eq_zero_iff.mp hlen.symm).symm
  | cons x as ih =>
    cases b with
    | nil => cases hlen
    | cons y bs =>
      have hrest : as.length = bs.length := by simpa using hlen
      rw [toNat_cons, toNat_cons, hrest] at h
      have ha := toNat_lt as
      have hb := toNat_lt bs
      rw [hrest] at ha
      have hpos : 0 < 256 ^ bs.length := by positivity
      -- the rest is smaller than a power of 256, so the first bytes are the quotients
      have hx : x.toNat = y.toNat := by
        have hdiv := congrArg (· / 256 ^ bs.length) h
        simpa [Nat.mul_comm _ (256 ^ bs.length), Nat.mul_add_div hpos,
          Nat.div_eq_of_lt ha, Nat.div_eq_of_lt hb] using hdiv
      have htail : toNat as = toNat bs := by
        rw [hx] at h
        omega
      rw [UInt8.toNat_inj.mp hx, ih hrest htail]

/-- A string without a zero in front is the shortest with its number. -/
theorem length_le_of_toNat_eq {a b : Bytes} (ha : a.head? ≠ some 0)
    (h : toNat a = toNat b) : a.length ≤ b.length := by
  rcases List.eq_nil_or_concat a with rfl | ⟨_, _, hne⟩
  · exact Nat.zero_le _
  · have hne : a ≠ [] := by
      rw [hne]
      simp
    -- the number lies between a power of 256 for `a` and one for `b`
    have hlow := pow_le_toNat hne ha
    have hhigh := toNat_lt b
    rw [← h] at hhigh
    have := (Nat.pow_lt_pow_iff_right (by decide : 1 < 256)).mp (Nat.lt_of_le_of_lt hlow hhigh)
    omega

/-- A number has one form without leading zeros. -/
theorem eq_of_toNat_eq {a b : Bytes} (ha : a.head? ≠ some 0) (hb : b.head? ≠ some 0)
    (h : toNat a = toNat b) : a = b :=
  eq_of_toNat_eq_of_length_eq
    (Nat.le_antisymm (length_le_of_toNat_eq ha h) (length_le_of_toNat_eq hb h.symm)) h

/-! ## Writing -/

/-- A number is read as it was written. -/
theorem toNat_ofUInt32 (v : UInt32) : toNat (ofUInt32 v) = v.toNat := by
  have hv := v.toNat_lt
  rw [ofUInt32, toNat_dropWhile]
  simp only [toNat, List.foldl_cons, List.foldl_nil, UInt8.toNat_ofNat']
  omega

/-- What is written is what was read, less its leading zeros. -/
theorem ofUInt32_eq_dropWhile {v : UInt32} {raw : Bytes} (h : toNat raw = v.toNat) :
    ofUInt32 v = raw.dropWhile (· == 0) := by
  apply eq_of_toNat_eq
  · exact head?_dropWhile_ne _
  · exact head?_dropWhile_ne _
  · rw [toNat_ofUInt32, toNat_dropWhile, h]

/-- A number is written as short as possible. -/
theorem length_ofUInt32_le {v : UInt32} {raw : Bytes} (h : toNat raw = v.toNat) :
    (ofUInt32 v).length ≤ raw.length :=
  length_le_of_toNat_eq (head?_dropWhile_ne _) ((toNat_ofUInt32 v).trans h.symm)

/-- The number of bytes written is the one that the length check counts. -/
theorem length_ofUInt32 (v : UInt32) :
    (ofUInt32 v).length = OptionValue.unsignedLength v := by
  rw [OptionValue.unsignedLength]
  split
  · next h =>
    have hle : (ofUInt32 v).length ≤ ([] : Bytes).length := length_ofUInt32_le h.symm
    exact Nat.le_zero.mp hle
  · next h =>
    have hne : ofUInt32 v ≠ [] := by
      intro hnil
      rw [← toNat_ofUInt32, hnil] at h
      exact h rfl
    have hpos := List.length_pos_iff.mpr hne
    -- the same bounds in powers of two determine the binary logarithm
    have hlow := pow_le_toNat hne (head?_dropWhile_ne _)
    have hhigh := toNat_lt (ofUInt32 v)
    rw [toNat_ofUInt32, show 256 = 2 ^ 8 by rfl, ← Nat.pow_mul] at hlow hhigh
    have h1 := (Nat.le_log2 h).mpr hlow
    have h2 := (Nat.log2_lt h).mpr hhigh
    omega

/-! ## Two bytes -/

theorem toNat_toUInt16 (high low : UInt8) :
    (toUInt16 high low).toNat = high.toNat * 256 + low.toNat := by
  have hh := high.toNat_lt
  have hl := low.toNat_lt
  exact UInt16.toNat_ofNat_of_lt' (by simp only [UInt16.size]; omega)

theorem ofUInt16_toUInt16 (high low : UInt8) : ofUInt16 (toUInt16 high low) = [high, low] := by
  have hh := high.toNat_lt
  have hl := low.toNat_lt
  rw [ofUInt16, toNat_toUInt16]
  congr 1
  · apply UInt8.toNat_inj.mp
    rw [UInt8.toNat_ofNat']
    omega
  · congr 1
    apply UInt8.toNat_inj.mp
    rw [UInt8.toNat_ofNat']
    omega

/-! ## Text -/

/-- Different texts have different bytes. -/
theorem ofString_injective {s t : String} (h : ofString s = ofString t) : s = t := by
  have := toString?_ofString s
  rw [h, toString?_ofString] at this
  exact (Option.some.inj this).symm

end Coap.Bytes
