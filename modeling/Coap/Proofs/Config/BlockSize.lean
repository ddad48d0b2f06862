/-
# The choice of a block size

The exponent for a number of bytes is the greatest one whose blocks are not larger
(`exponentForSize?_eq_some_iff`).  So the exponent for a link is the greatest one not above that of
the configuration whose blocks fit the packets of the link (`isGreatest_forMtu`).  No setting leads
to an exponent that stands for no block size, and what two nodes agree on, the smaller of two
exponents, can always be written to a block option.
-/
import Coap.Config.Settings
import Coap.Proofs.Transfer.Slices
import Mathlib.Order.Bounds.Basic

namespace Coap

/-! ## Exponents -/

namespace Block

variable {size e : Nat}

theorem sizeOfExponent_le_iff (hsize : size ≠ 0) :
    sizeOfExponent e ≤ size ↔ e + 4 ≤ size.log2 :=
  (Nat.le_log2 hsize).symm

theorem exponentForSize?_eq_none_iff : exponentForSize? size = none ↔ size < 16 := by
  rw [exponentForSize?]
  split
  · next hsmall => exact iff_of_true rfl hsmall
  · next hlarge => exact iff_of_false (Option.some_ne_none _) hlarge

/-- **The exponent for a number of bytes** is the greatest one whose blocks are not larger. -/
theorem exponentForSize?_eq_some_iff : exponentForSize? size = some e ↔
    IsGreatest {e | e ≤ maxBlockExponent ∧ sizeOfExponent e ≤ size} e := by
  by_cases hsmall : size < 16
  · rw [exponentForSize?_eq_none_iff.mpr hsmall]
    refine iff_of_false (Option.some_ne_none e).symm ?_
    rintro ⟨⟨-, hfits⟩, -⟩
    have hleast : 2 ^ 4 ≤ sizeOfExponent e := Nat.pow_le_pow_right (by decide) (Nat.le_add_left ..)
    omega
  · have hlog : 4 ≤ size.log2 := (Nat.le_log2 (by omega)).mpr (Nat.le_of_not_lt hsmall)
    have hgreatest : IsGreatest {e | e ≤ maxBlockExponent ∧ sizeOfExponent e ≤ size}
        (min (size.log2 - 4) maxBlockExponent) := by
      constructor
      · refine ⟨Nat.min_le_right .., (sizeOfExponent_le_iff (by omega)).mpr ?_⟩
        omega
      · rintro k ⟨hk, hfits⟩
        have hk' := (sizeOfExponent_le_iff (by omega)).mp hfits
        exact Nat.le_min.mpr ⟨by omega, hk⟩
    rw [exponentForSize?, if_neg hsmall, Option.some.injEq]
    constructor
    · rintro rfl
      exact hgreatest
    · intro he
      exact hgreatest.unique he

/-- A block can travel: there is such a block, and the value it has in an option is read as this
block again. -/
def Travels (b : Block) : Prop :=
  make? b.number b.more b.exponent = .ok b ∧ ofUInt32? b.toUInt32 = .ok b

theorem travels_iff {b : Block} :
    b.Travels ↔ b.number < numberCount ∧ b.exponent ≤ maxBlockExponent := by
  constructor
  · rintro ⟨-, hread⟩
    exact ofUInt32?_bounds hread
  · rintro ⟨hnumber, hexponent⟩
    refine ⟨if_neg ?_, ofUInt32?_toUInt32 hnumber hexponent⟩
    rintro (habove | habove)
    · exact Nat.not_lt_of_le hexponent habove
    · exact Nat.not_lt_of_le habove hnumber

end Block

/-! ## Configurations -/

namespace Config

variable {c : Config} {mtu : Nat}

/-- **The exponent for a link** is the greatest one not above that of the configuration whose
blocks fit the packets of the link beside the rest of a message. -/
theorem isGreatest_forMtu (hc : c.maxBlockExponent ≤ Coap.maxBlockExponent) (hmtu : 80 ≤ mtu) :
    IsGreatest {e | e ≤ c.maxBlockExponent ∧ Block.sizeOfExponent e + messageOverhead ≤ mtu}
      (c.forMtu (some mtu)).maxBlockExponent := by
  have hroom : messageOverhead ≤ mtu := Nat.le_trans (by decide) hmtu
  cases hfound : Block.exponentForSize? (mtu - messageOverhead) with
  | none =>
    have hsmall := Block.exponentForSize?_eq_none_iff.mp hfound
    unfold messageOverhead at hsmall
    omega
  | some e =>
    have hforMtu : (c.forMtu (some mtu)).maxBlockExponent = min c.maxBlockExponent e := by
      simp only [forMtu, hfound, Option.getD_some]
    obtain ⟨⟨-, hfits⟩, hgreatest⟩ := Block.exponentForSize?_eq_some_iff.mp hfound
    rw [hforMtu]
    constructor
    · refine ⟨Nat.min_le_left .., Nat.add_le_of_le_sub hroom (Nat.le_trans ?_ hfits)⟩
      exact Nat.pow_le_pow_right (by decide) (Nat.add_le_add_right (Nat.min_le_right ..) 4)
    · rintro k ⟨hk, hkfits⟩
      have hke : k ≤ e := hgreatest ⟨Nat.le_trans hk hc, Nat.le_sub_of_add_le hkfits⟩
      exact Nat.le_min.mpr ⟨hk, hke⟩

/-- No setting leads beyond the largest block size. -/
theorem maxBlockExponent_set_le (hc : c.maxBlockExponent ≤ Coap.maxBlockExponent) (x : Setting) :
    (c.set x).maxBlockExponent ≤ Coap.maxBlockExponent := by
  cases x with
  | maxBlockExponent exponent => exact Nat.min_le_right ..
  | mtu mtu? =>
    cases mtu? with
    | none => exact hc
    | some mtu => exact Nat.le_trans (Nat.min_le_left ..) hc
  | _ => exact hc

theorem maxBlockExponent_ofSettings_le (settings : List Setting) :
    (ofSettings settings).maxBlockExponent ≤ Coap.maxBlockExponent :=
  List.foldlRecOn (motive := fun c => c.maxBlockExponent ≤ Coap.maxBlockExponent) settings set
    (Nat.le_refl _) fun _ hc x _ => maxBlockExponent_set_le hc x

end Config

/-! ## Negotiation -/

namespace Transfers

/-- The largest exponent stays the one of the configuration. -/
theorem maxExponent_run (c : Config) (history : History) :
    ((start c).run history).maxExponent = c.maxBlockExponent :=
  (sameLimits_run (start c) history).1

end Transfers

/-- **Blocks fit the link.**  A size of 16 bytes or more has an exponent, the greatest one up to 6
whose blocks are not larger than the size.  Whatever was set, the exponent of a configuration is at
most 6.  For a link whose packets have 80 bytes or more it becomes the greatest one that is not
raised and leaves 64 bytes of a packet beside the block.  And whatever exponent a peer asks for,
the blocks of the exponent that is agreed on can travel; so a response that has to be cut always
leaves as its first slice. -/
theorem blocks_fit_link :
    (∀ size, Block.exponentForSize? size = none ↔ size < 16) ∧
    (∀ size e, Block.exponentForSize? size = some e ↔
      IsGreatest {e | e ≤ 6 ∧ 2 ^ (e + 4) ≤ size} e) ∧
    ∀ settings,
      let c := Config.ofSettings settings
      c.maxBlockExponent ≤ 6 ∧
      (∀ mtu, 80 ≤ mtu →
        let c' := c.forMtu (some mtu)
        c'.maxBlockSize + 64 ≤ mtu ∧ c'.maxBlockExponent ≤ c.maxBlockExponent ∧
        ∀ e ≤ c.maxBlockExponent, Block.sizeOfExponent e + 64 ≤ mtu → e ≤ c'.maxBlockExponent) ∧
      ∀ history,
        let s := (Transfers.start c).run history
        (∀ number more asked, number < 2 ^ 20 →
          (⟨number, more, min asked s.maxExponent⟩ : Block).Travels) ∧
        ∀ t peer m request?, s.Cuts m request? → ∃ first s',
          s.send t peer m request? = (.ok first, s') ∧
          first.block2? = some ⟨0, true, s.firstExponent request?⟩ ∧
          s.firstExponent request? ≤ s.maxExponent := by
  refine ⟨fun _ => Block.exponentForSize?_eq_none_iff,
    fun _ _ => Block.exponentForSize?_eq_some_iff, fun settings => ?_⟩
  intro c
  have hc : c.maxBlockExponent ≤ Coap.maxBlockExponent :=
    Config.maxBlockExponent_ofSettings_le settings
  refine ⟨hc, fun mtu hmtu => ?_, fun history => ?_⟩
  · obtain ⟨⟨hlowered, hfits⟩, hgreatest⟩ := Config.isGreatest_forMtu hc hmtu
    exact ⟨hfits, hlowered, fun e he hroom => hgreatest ⟨he, hroom⟩⟩
  · intro s
    have hs : s.maxExponent ≤ Coap.maxBlockExponent :=
      (Transfers.maxExponent_run c history).trans_le hc
    constructor
    · intro number more asked hnumber
      exact Block.travels_iff.mpr ⟨hnumber, Nat.le_trans (Nat.min_le_right ..) hs⟩
    · intro t peer m request? hcuts
      have hle := s.firstExponent_le request?
      have hexponent := Nat.le_trans hle hs
      exact ⟨_, _, Transfers.send_of_cuts t peer hcuts hexponent,
        (Transfers.isFirst_firstOptions hcuts.2.1 hexponent).place, hle⟩

/-- An exponent above the largest one was set, and a packet of the link has one byte too few for a
block of 1024 bytes. -/
theorem blocks_fit_link_of_1087_bytes :
    let c := Config.ofSettings [.mtu (some 1500), .maxBlockExponent 9, .tokenLength 20]
    let c' := c.forMtu (some 1087)
    let m : Message :=
      { type := .acknowledgement, code := .response .content, id := 9,
        payload := List.replicate 1025 7 }
    80 ≤ 1087 ∧ c.maxBlockExponent = 6 ∧ c'.maxBlockExponent = 5 ∧
    c'.maxBlockSize + 64 ≤ 1087 ∧ Block.sizeOfExponent 6 + 64 = 1088 ∧
    (⟨1048575, true, min 7 (Transfers.start c).maxExponent⟩ : Block).Travels ∧
    ∃ first s', (Transfers.start c).send 0 ⟨1⟩ m none = (.ok first, s') ∧
      first.block2? = some ⟨0, true, 6⟩ := by
  intro c c' m
  obtain ⟨-, -, hsettings⟩ := blocks_fit_link
  obtain ⟨-, hlink, hnegotiated⟩ :=
    hsettings [.mtu (some 1500), .maxBlockExponent 9, .tokenLength 20]
  obtain ⟨htravels, hcut⟩ := hnegotiated []
  obtain ⟨first, s', hsend, hplace, -⟩ := hcut 0 ⟨1⟩ m none (by decide +kernel)
  exact ⟨by decide, rfl, rfl, (hlink 1087 (by decide)).1, rfl,
    htravels 1048575 true 7 (by decide), first, s', hsend, hplace⟩

end Coap
