/-
# Blocks in messages

A block that was read from an option can be written to one, and is read again as the same block.
-/
import Coap.Proofs.Message.Editing

namespace Coap

namespace Block

variable {b : Block} {n : OptionNumber} {v : UInt32}

theorem size_pos (b : Block) : 0 < b.size := Nat.pow_pos (by decide)

/-- A block that was read from an option is small enough to be written to one. -/
theorem ofUInt32?_bounds (h : ofUInt32? v = .ok b) :
    b.number < numberCount ∧ b.exponent ≤ maxBlockExponent := by
  unfold ofUInt32? at h
  split at h
  · cases h
  · next hv =>
    cases h
    obtain ⟨hexponent, hnumber⟩ := not_or.mp hv
    have hlt : v.toNat % 8 < 8 := Nat.mod_lt _ (by decide)
    refine ⟨Nat.div_lt_of_lt_mul ?_, ?_⟩
    · rw [Nat.mul_comm]
      exact Nat.lt_of_not_le hnumber
    · show v.toNat % 8 ≤ 6
      omega

/-- The value of a block whose number leaves room for the other parts in 32 bits. -/
theorem toNat_toUInt32 (hnumber : b.number < 2 ^ 28) (hexponent : b.exponent ≤ maxBlockExponent) :
    b.toUInt32.toNat = b.number * 16 + (if b.more then 8 else 0) + b.exponent := by
  have he : b.exponent ≤ 6 := hexponent
  rw [toUInt32, UInt32.toNat_ofNat']
  split <;> omega

theorem ofUInt32?_toUInt32 (hnumber : b.number < numberCount)
    (hexponent : b.exponent ≤ maxBlockExponent) : ofUInt32? b.toUInt32 = .ok b := by
  have hn : b.number < 1048576 := hnumber
  have he : b.exponent ≤ 6 := hexponent
  rw [ofUInt32?, toNat_toUInt32 (by omega) hexponent]
  obtain ⟨number, more, exponent⟩ := b
  dsimp only at hn he ⊢
  rw [if_neg (by unfold numberCount; cases more <;> simp <;> omega)]
  cases more with
  | true =>
    have h₁ : (number * 16 + 8 + exponent) / 16 = number := by omega
    have h₂ : (number * 16 + 8 + exponent) / 8 % 2 = 1 := by omega
    have h₃ : (number * 16 + 8 + exponent) % 8 = exponent := by omega
    simp [h₁, h₂, h₃]
  | false =>
    have h₁ : (number * 16 + exponent) / 16 = number := by omega
    have h₂ : (number * 16 + exponent) / 8 % 2 = 0 := by omega
    have h₃ : (number * 16 + exponent) % 8 = exponent := by omega
    simp [h₁, h₂, h₃]

/-- A block can be written to an option if there is such a block number. -/
theorem validateFor_iff (hn : n = .block1 ∨ n = .block2) (hnumber : b.number < 2 ^ 28)
    (hexponent : b.exponent ≤ maxBlockExponent) :
    (OptionValue.unsigned b.toUInt32).validateFor n = .ok () ↔ b.number < numberCount := by
  have he : b.exponent ≤ 6 := hexponent
  have hdefinition : ∃ d, n.definition? = some d ∧ d.format = .unsigned ∧ d.minLength = 0 ∧
      d.maxLength = 3 ∧ d.implied? = none := by
    rcases hn with rfl | rfl <;> exact ⟨_, rfl, rfl, rfl, rfl, rfl⟩
  obtain ⟨d, hd, hformat, hmin, hmax, himplied⟩ := hdefinition
  rw [OptionValue.validateFor_unsigned_iff hd hformat hmin, hmax, himplied,
    toNat_toUInt32 hnumber hexponent, numberCount]
  constructor
  · rintro ⟨hlt, -⟩
    split at hlt <;> omega
  · intro hlt
    refine ⟨by split <;> omega, by simp, fun hreserved => ?_⟩
    have hseven := hreserved.2
    split at hseven <;> omega

end Block

namespace Message

variable {m : Message} {n : OptionNumber} {b : Block}

theorem block?_bounds (h : m.block? n = some b) :
    b.number < Block.numberCount ∧ b.exponent ≤ maxBlockExponent := by
  obtain ⟨v, -, hv⟩ := Option.bind_eq_some_iff.mp h
  cases hread : Block.ofUInt32? v with
  | error e =>
    rw [hread] at hv
    cases hv
  | ok b' =>
    rw [hread] at hv
    cases hv
    exact Block.ofUInt32?_bounds hread

/-- The block that was written to an option is read from it. -/
theorem block?_of_values (hnumber : b.number < Block.numberCount)
    (hexponent : b.exponent ≤ maxBlockExponent)
    (h : m.options.values n = [.unsigned b.toUInt32]) : m.block? n = some b := by
  rw [block?, unsigned?_of_values h, Option.bind_some, Block.ofUInt32?_toUInt32 hnumber hexponent]
  rfl

end Message

end Coap
