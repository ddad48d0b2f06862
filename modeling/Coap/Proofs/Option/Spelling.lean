/-
# How bytes spell option values

Two checks stand between an option value and a message: one reads the bytes of a datagram,
the other looks at a value made in memory.  Both are compared here with what the registry
says in so many words: which bytes spell which values (`Spells`), what makes bytes
unacceptable (`Malformed`) and which value goes without saying (`IsImplied`).

* `decode_cases` : what becomes of the bytes of an option, in these words;
* `validateFor_eq_ok_iff` : which values made in memory pass;
* `validateFor_of_decode`, `bytes_of_decode` : what was read passes, and how it is written again.
-/
import Coap.Proofs.Bytes.Shortest

namespace Coap

/-! ## The registry as a whole -/

/-- What all entries of the registry have in common, whatever they are about. -/
structure OptionDefinition.Sound (d : OptionDefinition) : Prop where
  /-- A number fits four bytes and may be as short as it likes. -/
  unsigned : d.format = .unsigned → d.minLength = 0 ∧ d.maxLength ≤ 4
  /-- An empty value takes no bytes. -/
  empty : d.format = .empty → d.maxLength = 0
  /-- Only a number goes without saying. -/
  implied : d.implied? ≠ none → d.format = .unsigned
  /-- A block is a number, and none goes without saying. -/
  block : d.number = .block1 ∨ d.number = .block2 → d.format = .unsigned ∧ d.implied? = none
  /-- An option header can announce the longest value. -/
  maxLength_le : d.maxLength ≤ 1034

/-- The bounds in the registry fit the formats. -/
theorem registry_sound {d : OptionDefinition} (hd : d ∈ optionRegistry) : d.Sound := by
  have h : ∀ d ∈ optionRegistry,
      (d.format = .unsigned → d.minLength = 0 ∧ d.maxLength ≤ 4) ∧
        (d.format = .empty → d.maxLength = 0) ∧ (d.implied? ≠ none → d.format = .unsigned) ∧
        (d.number = .block1 ∨ d.number = .block2 → d.format = .unsigned ∧ d.implied? = none) ∧
        d.maxLength ≤ 1034 := by
    decide
  obtain ⟨h1, h2, h3, h4, h5⟩ := h d hd
  exact ⟨h1, h2, h3, h4, h5⟩

namespace OptionDefinition

variable {n : OptionNumber} {d : OptionDefinition}

theorem number_eq (hd : n.definition? = some d) : d.number = n :=
  (OptionNumber.mem_of_definition? hd).2

theorem sound (hd : n.definition? = some d) : d.Sound :=
  registry_sound (OptionNumber.mem_of_definition? hd).1

end OptionDefinition

namespace OptionValue

/-! ## Spelling -/

/-- The bytes that spell a value of a given format.  A number may have leading zeros. -/
inductive Spells : OptionFormat → Bytes → OptionValue → Prop
  | empty (raw : Bytes) : Spells .empty raw .empty
  | octets (raw : Bytes) : Spells .octets raw (.octets raw)
  | text (s : String) : Spells .text (Bytes.ofString s) (.text s)
  | unsigned (raw : Bytes) (v : UInt32) (h : Bytes.toNat raw = v.toNat) :
      Spells .unsigned raw (.unsigned v)

/-- Bytes spell at most one value of a format. -/
theorem Spells.unique {f : OptionFormat} {raw : Bytes} {v w : OptionValue}
    (hv : Spells f raw v) (hw : Spells f raw w) : v = w := by
  cases hv with
  | empty =>
    cases hw
    rfl
  | octets =>
    cases hw
    rfl
  | text s =>
    generalize hr : Bytes.ofString s = raw at hw
    cases hw with
    | text t => rw [Bytes.ofString_injective hr]
  | unsigned _ x hx =>
    cases hw with
    | unsigned _ y hy => rw [UInt32.toNat_inj.mp (hx.symm.trans hy)]

/-- A spelling has the format of its value. -/
theorem Spells.format_eq {f : OptionFormat} {raw : Bytes} {v : OptionValue}
    (h : Spells f raw v) : v.format = f := by
  cases h <;> rfl

theorem Spells.toNat_eq {f : OptionFormat} {raw : Bytes} {x : UInt32}
    (h : Spells f raw (.unsigned x)) : Bytes.toNat raw = x.toNat := by
  cases h with
  | unsigned _ _ hx => exact hx

/-- A value is spelt by the bytes that are written for it. -/
theorem spells_bytes (v : OptionValue) : Spells v.format v.bytes v := by
  cases v with
  | empty => exact .empty _
  | octets b => exact .octets b
  | text s => exact .text s
  | unsigned x => exact .unsigned _ x (Bytes.toNat_ofUInt32 x)

/-- The bytes of a value are as many as its length says. -/
theorem length_bytes (v : OptionValue) : v.bytes.length = v.encodedLength := by
  cases v with
  | unsigned x => exact Bytes.length_ofUInt32 x
  | _ => rfl

/-- Nothing shorter than what is written spells the value, unless the value is empty. -/
theorem Spells.length_bytes_le {f : OptionFormat} {raw : Bytes} {v : OptionValue}
    (h : Spells f raw v) : v.bytes.length ≤ raw.length := by
  cases h with
  | empty => exact Nat.zero_le _
  | unsigned _ x hx => exact Bytes.length_ofUInt32_le hx
  | _ => exact Nat.le_refl _

/-! ## What the registry says about bytes and values -/

/-- The bytes `raw` stand for the value `v` of an option. -/
def Denotes (n : OptionNumber) (raw : Bytes) (v : OptionValue) : Prop :=
  ∃ d, n.definition? = some d ∧ Spells d.format raw v

/-- The value goes without saying and is therefore never sent. -/
def IsImplied (n : OptionNumber) (v : OptionValue) : Prop :=
  ∃ d x, n.definition? = some d ∧ d.implied? = some x ∧ v = .unsigned x

/-- The bytes are those of a block with the size exponent that is reserved. -/
def IsReservedBlock (n : OptionNumber) (raw : Bytes) : Prop :=
  (n = .block1 ∨ n = .block2) ∧ Bytes.toNat raw % 8 = 7

/-- Why bytes are no acceptable value of an option, wherever it stands. -/
inductive Malformed (n : OptionNumber) (raw : Bytes) : Prop
  | unrecognized (h : n.definition? = none)
  | length {d : OptionDefinition} (hd : n.definition? = some d)
      (h : raw.length < d.minLength ∨ d.maxLength < raw.length)
  | encoding {d : OptionDefinition} (hd : n.definition? = some d) (hf : d.format = .text)
      (h : ∀ s, Bytes.ofString s ≠ raw)
  | blockSize (h : IsReservedBlock n raw)

variable {n : OptionNumber} {raw : Bytes} {v w : OptionValue} {d : OptionDefinition}

theorem Denotes.unique (hv : Denotes n raw v) (hw : Denotes n raw w) : v = w := by
  obtain ⟨d, hd, hv⟩ := hv
  obtain ⟨d', hd', hw⟩ := hw
  rw [hd] at hd'
  cases hd'
  exact hv.unique hw

/-! ## Reading -/

/-- **What is spelled is read.** -/
theorem read_of_spells (h : Spells d.format raw v) : read d raw = .ok v := by
  obtain ⟨_, _, f, _, _, _, _⟩ := d
  cases h with
  | text s => simp [read, Bytes.toString?_ofString]
  | unsigned _ x hx => simp [read, hx]
  | _ => rfl

/-- What the bytes of an option spell, if their length is permitted: a value, unless they
are no text. -/
theorem spells_or_encoding (hd : n.definition? = some d) (hlen : raw.length ≤ d.maxLength) :
    (∃ v, Spells d.format raw v) ∨
      d.format = .text ∧ (∀ s, Bytes.ofString s ≠ raw) ∧
        read d raw = .error (.invalidEncoding n) := by
  cases hf : d.format with
  | empty => exact .inl ⟨_, .empty raw⟩
  | octets => exact .inl ⟨_, .octets raw⟩
  | text =>
    cases hs : Bytes.toString? raw with
    | some s =>
      rw [← Bytes.ofString_of_toString? hs]
      exact .inl ⟨_, .text s⟩
    | none =>
      refine .inr ⟨rfl, ?_, ?_⟩
      · intro s hs'
        rw [← hs', Bytes.toString?_ofString] at hs
        cases hs
      · simp only [read, hf, hs, OptionDefinition.number_eq hd]
  | unsigned =>
    -- at most four bytes denote a number below `2 ^ 32`
    left
    have hmax := ((OptionDefinition.sound hd).unsigned hf).2
    have hlt : Bytes.toNat raw < 2 ^ 32 := by
      refine Nat.lt_of_lt_of_le (Bytes.toNat_lt raw) ?_
      rw [show 2 ^ 32 = 256 ^ 4 by rfl]
      exact Nat.pow_le_pow_right (by decide) (Nat.le_trans hlen hmax)
    refine ⟨_, .unsigned raw (UInt32.ofNat (Bytes.toNat raw)) ?_⟩
    rw [UInt32.toNat_ofNat_of_lt' hlt]

theorem Malformed.length_mem (hd : n.definition? = some d) (hm : ¬ Malformed n raw) :
    d.minLength ≤ raw.length ∧ raw.length ≤ d.maxLength := by
  constructor
  · by_contra h
    exact hm (.length hd (.inl (by omega)))
  · by_contra h
    exact hm (.length hd (.inr (by omega)))

theorem not_malformed (hd : n.definition? = some d)
    (hlen : ¬(raw.length < d.minLength ∨ d.maxLength < raw.length)) (hv : Spells d.format raw v)
    (hb : ¬ IsReservedBlock n raw) : ¬ Malformed n raw := by
  intro h
  cases h with
  | unrecognized h =>
    rw [hd] at h
    cases h
  | length hd' h =>
    rw [hd] at hd'
    cases hd'
    exact hlen h
  | encoding hd' hf h =>
    rw [hd] at hd'
    cases hd'
    rw [hf] at hv
    cases hv with
    | text s => exact h s rfl
  | blockSize h => exact hb h

/-- What the meaning of a value that was read is found to be. -/
theorem checkMeaning_cases (hd : n.definition? = some d) (hv : Spells d.format raw v) :
    IsReservedBlock n raw ∧ checkMeaning d v = .error (.reservedBlockSize n) ∨
      ¬ IsReservedBlock n raw ∧ IsImplied n v ∧ checkMeaning d v = .error (.impliedValue n) ∨
      ¬ IsReservedBlock n raw ∧ ¬ IsImplied n v ∧ checkMeaning d v = .ok () := by
  have hnum := OptionDefinition.number_eq hd
  by_cases hb : IsReservedBlock n raw
  · -- the check for an implied value comes first, but no block has one
    left
    obtain ⟨hf, hi⟩ := (OptionDefinition.sound hd).block (hnum ▸ hb.1)
    rw [hf] at hv
    cases hv with
    | unsigned _ x hx =>
      refine ⟨hb, ?_⟩
      rw [checkMeaning, hi, hnum, ← hx, if_neg (by simp)]
      exact if_pos hb
  · right
    by_cases hi : IsImplied n v
    · left
      refine ⟨hb, hi, ?_⟩
      obtain ⟨d', x, hd', hx, rfl⟩ := hi
      rw [hd] at hd'
      cases hd'
      rw [checkMeaning, if_pos hx, hnum]
    · right
      refine ⟨hb, hi, ?_⟩
      cases v with
      | unsigned x =>
        have hne : d.implied? ≠ some x := fun h => hi ⟨d, x, hd, h, rfl⟩
        rw [checkMeaning, if_neg hne, hnum, ← hv.toNat_eq]
        exact if_neg hb
      | _ => rfl

/-- **What becomes of the bytes of an option**: they are read as the value they denote, or
left out as a value that goes without saying, or malformed. -/
theorem decode_cases (n : OptionNumber) (raw : Bytes) :
    (∃ v, decode n raw = .ok v ∧ ¬ Malformed n raw ∧ Denotes n raw v ∧ ¬ IsImplied n v) ∨
    (decode n raw = .error (.impliedValue n) ∧ ¬ Malformed n raw ∧
      ∃ v, Denotes n raw v ∧ IsImplied n v) ∨
    ∃ fault, decode n raw = .error fault ∧ (∀ k, fault ≠ .impliedValue k) ∧
      Malformed n raw := by
  cases hd : n.definition? with
  | none => exact .inr (.inr ⟨.unrecognized n, by simp [decode, hd], by simp, .unrecognized hd⟩)
  | some d =>
    have hnum := OptionDefinition.number_eq hd
    by_cases hlen : raw.length < d.minLength ∨ d.maxLength < raw.length
    · refine .inr (.inr ⟨.length n raw.length d.minLength d.maxLength, ?_, by simp, .length hd hlen⟩)
      simp only [decode, hd, checkLength, if_pos hlen, hnum]
      rfl
    · have hmax : raw.length ≤ d.maxLength := by omega
      rcases spells_or_encoding hd hmax with ⟨v, hv⟩ | ⟨hf, hs, hread⟩
      · have hdec : decode n raw = (do checkMeaning d v; return v) := by
          simp only [decode, hd, checkLength, if_neg hlen, read_of_spells hv]
          rfl
        have hdenotes : Denotes n raw v := ⟨d, hd, hv⟩
        rcases checkMeaning_cases hd hv with ⟨hb, hc⟩ | ⟨hb, hi, hc⟩ | ⟨hb, hi, hc⟩
        · refine .inr (.inr ⟨.reservedBlockSize n, ?_, by simp, .blockSize hb⟩)
          rw [hdec, hc]
          rfl
        · refine .inr (.inl ⟨?_, not_malformed hd hlen hv hb, v, hdenotes, hi⟩)
          rw [hdec, hc]
          rfl
        · refine .inl ⟨v, ?_, not_malformed hd hlen hv hb, hdenotes, hi⟩
          rw [hdec, hc]
          rfl
      · refine .inr (.inr ⟨.invalidEncoding n, ?_, by simp, .encoding hd hf hs⟩)
        simp only [decode, hd, checkLength, if_neg hlen, hread]
        rfl

/-- Bytes are read exactly as the value they denote, if nothing speaks against it. -/
theorem decode_eq_ok_iff :
    decode n raw = .ok v ↔ ¬ Malformed n raw ∧ Denotes n raw v ∧ ¬ IsImplied n v := by
  constructor
  · intro h
    rcases decode_cases n raw with ⟨w, hw, hrest⟩ | ⟨he, -⟩ | ⟨_, he, -⟩
    · rw [hw] at h
      cases h
      exact hrest
    · rw [he] at h
      cases h
    · rw [he] at h
      cases h
  · rintro ⟨hm, hv, hi⟩
    rcases decode_cases n raw with ⟨w, hw, -, hw', -⟩ | ⟨-, -, w, hw, hi'⟩ | ⟨_, -, -, hm'⟩
    · rw [hw, hv.unique hw']
    · exact absurd (hv.unique hw ▸ hi') hi
    · exact absurd hm' hm

/-! ## Checking -/

/-- A value made in memory passes exactly if the bytes that are written for it are read as
this value. -/
theorem validateFor_eq_ok_iff : validateFor v n = .ok () ↔ decode n v.bytes = .ok v := by
  cases hd : n.definition? with
  | none => simp [validateFor, decode, hd]
  | some d =>
    by_cases hf : v.format = d.format
    · have hread : read d v.bytes = .ok v := read_of_spells (hf ▸ spells_bytes v)
      simp only [validateFor, decode, hd, if_pos hf, length_bytes, hread]
      cases checkLength d v.encodedLength with
      | error _ => simp [bind, Except.bind]
      | ok _ => cases h : checkMeaning d v <;> simp [bind, Except.bind, pure, Except.pure, h]
    · simp only [validateFor, hd, if_neg hf]
      constructor
      · intro h
        cases h
      · intro h
        obtain ⟨-, ⟨d', hd', hv⟩, -⟩ := decode_eq_ok_iff.mp h
        rw [hd] at hd'
        cases hd'
        exact absurd hv.format_eq hf

/-- The bytes that denote a value are those written for it, unless they are a number with a
leading zero. -/
theorem Denotes.bytes_eq (hv : Denotes n raw v) (hm : ¬ Malformed n raw)
    (hz : ∀ x, v = .unsigned x → raw.head? ≠ some 0) : v.bytes = raw := by
  obtain ⟨d, hd, hv⟩ := hv
  obtain ⟨-, hmax⟩ := Malformed.length_mem hd hm
  generalize hf : d.format = f at hv
  cases hv with
  | empty =>
    rw [(OptionDefinition.sound hd).empty hf] at hmax
    exact (List.length_eq_zero_iff.mp (Nat.le_zero.mp hmax)).symm
  | unsigned _ x hx =>
    rw [bytes, Bytes.ofUInt32_eq_dropWhile hx]
    exact Bytes.dropWhile_eq_self (hz x rfl)
  | _ => rfl

/-- Writing a value that was read leaves it acceptable: the shortest form of a number is
within the bounds if any form is, and all other values keep their bytes. -/
theorem Denotes.not_malformed_bytes (hm : ¬ Malformed n raw) (hv : Denotes n raw v) :
    ¬ Malformed n v.bytes := by
  cases v with
  | unsigned x =>
    obtain ⟨d, hd, hv⟩ := hv
    have hself : Spells d.format (unsigned x).bytes (.unsigned x) := hv.format_eq ▸ spells_bytes _
    apply not_malformed hd _ hself
    · -- the value is the number that was read
      rintro ⟨hn, h7⟩
      rw [hself.toNat_eq, ← hv.toNat_eq] at h7
      exact hm (.blockSize ⟨hn, h7⟩)
    · have hmin := ((OptionDefinition.sound hd).unsigned hv.format_eq.symm).1
      have hmax := (Malformed.length_mem hd hm).2
      have hlen := hv.length_bytes_le
      omega
  | _ =>
    rw [hv.bytes_eq hm (by simp)]
    exact hm

/-- What the wire check lets through passes the check in memory, however it was spelt. -/
theorem validateFor_of_decode (h : decode n raw = .ok v) : validateFor v n = .ok () := by
  obtain ⟨hm, hv, hi⟩ := decode_eq_ok_iff.mp h
  refine validateFor_eq_ok_iff.mpr (decode_eq_ok_iff.mpr ⟨hv.not_malformed_bytes hm, ?_, hi⟩)
  obtain ⟨d, hd, hv⟩ := hv
  exact ⟨d, hd, hv.format_eq ▸ spells_bytes v⟩

/-- What was read is written as the bytes it was read from, a number without the zeros in front. -/
theorem bytes_of_decode (h : decode n raw = .ok v) :
    v.bytes = if v.format = .unsigned then raw.dropWhile (· == 0) else raw := by
  obtain ⟨hm, hv, -⟩ := decode_eq_ok_iff.mp h
  cases v with
  | unsigned x =>
    obtain ⟨d, -, hv⟩ := hv
    exact Bytes.ofUInt32_eq_dropWhile hv.toNat_eq
  | _ => exact hv.bytes_eq hm (by simp)

/-- **The two checks accept the same values.**  What is read from the bytes of an option has the
format of the option and passes the check in memory; it is written in as many bytes as its length
says, and these are the bytes that were read, without the leading zeros if the option is a number.
What passes the check in memory is read from the bytes that are written for it.  So the values that
pass the check in memory are those that some bytes are read as. -/
theorem decode_agrees_with_validateFor (n : OptionNumber) :
    (∀ raw v, decode n raw = .ok v →
      validateFor v n = .ok () ∧ v.bytes.length = v.encodedLength ∧
        ∃ d, n.definition? = some d ∧ v.format = d.format ∧
          v.bytes = if d.format = .unsigned then raw.dropWhile (· == 0) else raw) ∧
    (∀ v, validateFor v n = .ok () → decode n v.bytes = .ok v) ∧
    ∀ v, validateFor v n = .ok () ↔ ∃ raw, decode n raw = .ok v := by
  refine ⟨fun raw v h => ⟨validateFor_of_decode h, length_bytes v, ?_⟩,
    fun v => validateFor_eq_ok_iff.mp, fun v => ⟨fun h => ?_, ?_⟩⟩
  · obtain ⟨-, ⟨d, hd, hv⟩, -⟩ := decode_eq_ok_iff.mp h
    exact ⟨d, hd, hv.format_eq, hv.format_eq ▸ bytes_of_decode h⟩
  · exact ⟨v.bytes, validateFor_eq_ok_iff.mp h⟩
  · rintro ⟨raw, h⟩
    exact validateFor_of_decode h

/-- A maximal age with two leading zeros is kept without them, and a name of two bytes in UTF-8 as
it is. -/
theorem decode_agrees_of_leading_zeros :
    decode .maxAge [0, 0, 61] = .ok (.unsigned 61) ∧
      validateFor (.unsigned 61) .maxAge = .ok () ∧ (unsigned 61).bytes = [61] ∧
      decode .maxAge [61] = .ok (.unsigned 61) ∧
      decode .uriPath [195, 169] = .ok (.text "é") ∧ (text "é").bytes = [195, 169] := by
  have hage : decode .maxAge [0, 0, 61] = .ok (.unsigned 61) := by decide
  have hname : decode .uriPath [195, 169] = .ok (.text "é") := by decide +kernel
  obtain ⟨hread, hwritten, -⟩ := decode_agrees_with_validateFor .maxAge
  obtain ⟨hvalid, -, d, hd, hformat, hbytes⟩ := hread _ _ hage
  obtain ⟨hreadName, -⟩ := decode_agrees_with_validateFor .uriPath
  obtain ⟨-, -, d', hd', hformat', hbytes'⟩ := hreadName _ _ hname
  rw [← hformat] at hbytes
  rw [← hformat'] at hbytes'
  exact ⟨hage, hvalid, hbytes, hwritten _ hvalid, hname, hbytes'⟩

end OptionValue

end Coap
