/-
# Byte strings

Everything that travels in a datagram is a list of bytes.  This module fixes the two
readings of such a list that the protocol uses: network byte order (most significant byte
first) and lower-case hexadecimal text.
-/

/-- A string of bytes, first byte first. -/
abbrev Coap.Bytes := List UInt8

namespace Coap.Bytes

/-! ## Network byte order -/

/-- The two bytes of a 16-bit number, most significant byte first. -/
def ofUInt16 (v : UInt16) : Bytes :=
  [UInt8.ofNat (v.toNat / 256), UInt8.ofNat v.toNat]

/-- The 16-bit number with the given most and least significant bytes. -/
def toUInt16 (high low : UInt8) : UInt16 :=
  UInt16.ofNat (high.toNat * 256 + low.toNat)

/-- The number a byte string denotes in network byte order; no bytes denote zero. -/
def toNat (bytes : Bytes) : Nat :=
  bytes.foldl (fun acc byte => acc * 256 + byte.toNat) 0

/-- The shortest byte string denoting `v`: its four bytes without the leading zeros, so
that zero takes no bytes at all. -/
def ofUInt32 (v : UInt32) : Bytes :=
  [UInt8.ofNat (v.toNat / 16777216), UInt8.ofNat (v.toNat / 65536),
    UInt8.ofNat (v.toNat / 256), UInt8.ofNat v.toNat].dropWhile (· == 0)

theorem toUInt16_ofUInt16 (v : UInt16) :
    toUInt16 (UInt8.ofNat (v.toNat / 256)) (UInt8.ofNat v.toNat) = v := by
  have := v.toNat_lt
  apply UInt16.toNat_inj.mp
  simp only [toUInt16, UInt16.toNat_ofNat', UInt8.toNat_ofNat']
  omega

@[simp] theorem length_ofUInt16 (v : UInt16) : (ofUInt16 v).length = 2 := rfl

/-! ## Text -/

/-- The bytes of a text in UTF-8. -/
def ofString (s : String) : Bytes := s.toByteArray.data.toList

/-- The text a byte string encodes in UTF-8, if it is well formed. -/
def toString? (bytes : Bytes) : Option String := String.fromUTF8? ⟨bytes.toArray⟩

theorem toString?_ofString (s : String) : toString? (ofString s) = some s := by
  have : (⟨(ofString s).toArray⟩ : ByteArray) = s.toByteArray := by simp [ofString]
  rw [toString?, this, String.fromUTF8?, dif_pos s.isValidUTF8]
  rfl

theorem ofString_of_toString? {bytes : Bytes} {s : String} (h : toString? bytes = some s) :
    ofString s = bytes := by
  simp only [toString?, String.fromUTF8?] at h
  split at h
  · injection h with h
    subst h
    simp [ofString, String.fromUTF8]
  · cases h

/-! ## Hexadecimal text -/

/-- The lower-case hexadecimal digit of a number below sixteen. -/
def hexDigit (n : Nat) : Char :=
  if n < 10 then Char.ofNat (48 + n) else Char.ofNat (87 + n)

/-- The value of a hexadecimal digit of either case. -/
def hexValue? (c : Char) : Option Nat :=
  if '0' ≤ c ∧ c ≤ '9' then some (c.toNat - 48)
  else if 'a' ≤ c ∧ c ≤ 'f' then some (c.toNat - 87)
  else if 'A' ≤ c ∧ c ≤ 'F' then some (c.toNat - 55)
  else none

/-- Two lower-case hexadecimal digits for every byte. -/
def toHex (bytes : Bytes) : String :=
  String.ofList (bytes.flatMap fun b => [hexDigit (b.toNat / 16), hexDigit (b.toNat % 16)])

/-- Reads pairs of hexadecimal digits. -/
def ofHexDigits? : List Char → Option Bytes
  | [] => some []
  | [_] => none
  | high :: low :: rest => do
    let h ← hexValue? high
    let l ← hexValue? low
    let bytes ← ofHexDigits? rest
    return UInt8.ofNat (h * 16 + l) :: bytes

/-- Reads a text made of pairs of hexadecimal digits. -/
def ofHex? (s : String) : Option Bytes := ofHexDigits? s.toList

end Coap.Bytes
