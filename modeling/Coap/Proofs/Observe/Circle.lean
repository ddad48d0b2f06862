/-
# The circle of sequence numbers

Sequence numbers go round, so any two of them are some steps apart, counted upwards from one to
the other (`exists_after`).  How many steps decides which of the two is the fresher one: it is the
one ahead by less than half the circle (`isFresherThan_after_iff`).  All else follows by counting
steps.
-/
import Coap.SequenceNumber
import Mathlib.Algebra.Group.Nat.Defs
import Mathlib.Logic.Function.Iterate

namespace Coap.SequenceNumber

variable {s previous : SequenceNumber} {n k : Nat} {elapsed : Duration}

theorem toNat_inj : s.toNat = previous.toNat ↔ s = previous := by
  cases s
  cases previous
  simp [toNat, BitVec.toNat_inj]

/-! ## Steps -/

/-- The number that is `n` after another one. -/
def after (s : SequenceNumber) (n : Nat) : SequenceNumber := .ofNat (s.toNat + n)

theorem toNat_after (s : SequenceNumber) (n : Nat) : (s.after n).toNat = (s.toNat + n) % count :=
  toNat_ofNat _

theorem after_zero (s : SequenceNumber) : s.after 0 = s := by
  simp [after, ofNat, toNat]

theorem next_after (s : SequenceNumber) (n : Nat) : (s.after n).next = s.after (n + 1) := by
  simp [after, next, add, ofNat, BitVec.ofNat_add, BitVec.add_assoc]

theorem after_after (s : SequenceNumber) (n k : Nat) : (s.after n).after k = s.after (n + k) := by
  induction k with
  | zero => exact after_zero _
  | succ k ih => rw [← next_after, ih, next_after, Nat.add_assoc]

theorem iterate_next (s : SequenceNumber) (n : Nat) : next^[n] s = s.after n := by
  induction n with
  | zero => exact (after_zero s).symm
  | succ n ih => rw [Function.iterate_succ_apply', ih, next_after]

/-- A sum is as many steps ahead as its second part says. -/
theorem add_ofNat (s : SequenceNumber) (n : Nat) : s.add (ofNat n) = s.after n := by
  apply toNat_inj.mp
  rw [toNat_add, toNat_after, toNat_ofNat, Nat.add_mod_mod]

/-- A whole round leads back. -/
theorem after_count (s : SequenceNumber) : s.after count = s := by
  apply toNat_inj.mp
  rw [toNat_after, Nat.add_mod_right, Nat.mod_eq_of_lt s.toNat_lt]

/-- Every number is some steps ahead of every other one, less than a whole round. -/
theorem exists_after (s previous : SequenceNumber) : ∃ n < count, s = previous.after n := by
  have hs := s.toNat_lt
  have hprevious := previous.toNat_lt
  refine ⟨(s.toNat + (count - previous.toNat)) % count, Nat.mod_lt _ (by decide), ?_⟩
  apply toNat_inj.mp
  rw [toNat_after]
  unfold count at hs hprevious ⊢
  omega

/-- Within a round, different steps lead to different numbers. -/
theorem after_inj (hn : n < count) (hk : k < count) : s.after n = s.after k ↔ n = k := by
  have hs := s.toNat_lt
  rw [← toNat_inj, toNat_after, toNat_after]
  unfold count at hs hn hk ⊢
  omega

/-- The steps on from there make up the round. -/
theorem after_left (s : SequenceNumber) (h : n ≤ count) : (s.after n).after (count - n) = s := by
  rw [after_after, Nat.add_sub_cancel' h, after_count]

/-! ## Which of two is the fresher one -/

/-- **The steps between two numbers decide** which one is the fresher, until so much time has
passed that the later one always is. -/
theorem isFresherThan_after_iff (hn : n < count) : (s.after n).isFresherThan s elapsed = true ↔
    (0 < n ∧ n < 2 ^ 23) ∨ freshnessWindow < elapsed := by
  have hs := s.toNat_lt
  unfold isFresherThan
  simp only [Bool.or_eq_true, Bool.and_eq_true, decide_eq_true_eq, toNat_after]
  apply or_congr_left
  unfold count at hs hn ⊢
  -- the sum either stays below the end of the circle or goes past it once
  omega

/-- **A number counts as fresher than those less than half the circle before it**, however much
time has passed. -/
theorem isFresherThan_after (s : SequenceNumber) (hpos : 0 < n) (hhalf : n < 2 ^ 23)
    (elapsed : Duration) : (s.after n).isFresherThan s elapsed = true :=
  (isFresherThan_after_iff (Nat.lt_trans hhalf (by decide))).mpr (.inl ⟨hpos, hhalf⟩)

/-- Within the window the steps alone decide. -/
theorem isFresherThan_after_iff_of_le (hn : n < count) (hsoon : elapsed ≤ freshnessWindow) :
    (s.after n).isFresherThan s elapsed = true ↔ 0 < n ∧ n < 2 ^ 23 :=
  (isFresherThan_after_iff hn).trans (or_iff_left (Nat.not_lt_of_le hsoon))

/-- Seen from the number ahead, the steps to the other one are what is left of the round. -/
theorem isFresherThan_before_iff_of_le (hn : n < count) (hsoon : elapsed ≤ freshnessWindow) :
    s.isFresherThan (s.after n) elapsed = true ↔ 2 ^ 23 < n := by
  rcases Nat.eq_zero_or_pos n with rfl | hpos
  · have hself := isFresherThan_after_iff_of_le (s := s) (n := 0) (by decide) hsoon
    rw [after_zero] at hself ⊢
    rw [hself]
    omega
  · have hback := isFresherThan_after_iff_of_le (s := s.after n) (n := count - n)
      (Nat.sub_lt (by decide) hpos) hsoon
    rw [after_left s (Nat.le_of_lt hn)] at hback
    rw [hback]
    unfold count at hn ⊢
    omega

/-- Half the circle away a number is not fresher, unless much time has passed. -/
theorem not_isFresherThan_after_half (s : SequenceNumber) (hsoon : elapsed ≤ freshnessWindow) :
    (s.after (2 ^ 23)).isFresherThan s elapsed = false := by
  apply Bool.eq_false_iff.mpr
  intro hfresher
  obtain ⟨-, hhalf⟩ := (isFresherThan_after_iff_of_le (by decide) hsoon).mp hfresher
  exact Nat.lt_irrefl _ hhalf

/-- **Freshness is less than half the circle ahead.**  Within 128 seconds a number is fresher than
another one exactly if it is at least one and less than `2 ^ 23` steps ahead of it.  So at most
one of two numbers is the fresher one, and neither is only if they are equal or half the circle
apart; up to `2 ^ 23 - 1` steps always lead to a fresher number, across zero too.  After a longer
time the later arrival always counts as fresher. -/
theorem fresher_iff_ahead :
    (∀ (s : SequenceNumber) (k : Nat) (elapsed : Duration), k < 2 ^ 24 →
      elapsed ≤ Duration.ofSeconds 128 →
      ((s.add (ofNat k)).isFresherThan s elapsed = true ↔ 0 < k ∧ k < 2 ^ 23)) ∧
    (∀ (a b : SequenceNumber) (elapsed : Duration), elapsed ≤ Duration.ofSeconds 128 →
      ¬ (a.isFresherThan b elapsed = true ∧ b.isFresherThan a elapsed = true) ∧
      (¬ a.isFresherThan b elapsed = true ∧ ¬ b.isFresherThan a elapsed = true ↔
        a = b ∨ a = b.add (ofNat (2 ^ 23)))) ∧
    (∀ (s : SequenceNumber) (n : Nat) (elapsed : Duration), 1 ≤ n → n < 2 ^ 23 →
      (next^[n] s).isFresherThan s elapsed = true) ∧
    ∀ (a b : SequenceNumber) (elapsed : Duration), Duration.ofSeconds 128 < elapsed →
      a.isFresherThan b elapsed = true := by
  refine ⟨?_, ?_, ?_, ?_⟩
  · intro s k elapsed hk hsoon
    rw [add_ofNat]
    exact isFresherThan_after_iff_of_le hk hsoon
  · intro a b elapsed hsoon
    obtain ⟨n, hn, rfl⟩ := exists_after a b
    have hequal : b.after n = b ↔ n = 0 := by
      rw [← after_inj hn (show 0 < count by decide), after_zero]
    have hhalf : b.after n = b.after (2 ^ 23) ↔ n = 2 ^ 23 := after_inj hn (by decide)
    rw [add_ofNat, hequal, hhalf, isFresherThan_after_iff_of_le hn hsoon,
      isFresherThan_before_iff_of_le hn hsoon]
    omega
  · intro s n elapsed hpos hhalf
    rw [iterate_next]
    exact isFresherThan_after s hpos hhalf elapsed
  · intro a b elapsed hlate
    obtain ⟨n, hn, rfl⟩ := exists_after a b
    exact (isFresherThan_after_iff hn).mpr (.inr hlate)

/-- From the last number on, across zero: just less than half the circle ahead is fresher after
128 seconds, and half the circle ahead is not; a nanosecond later it is. -/
theorem fresher_iff_ahead_across_zero :
    let s := ofNat (2 ^ 24 - 1)
    let window := Duration.ofSeconds 128
    (s.add (ofNat (2 ^ 23 - 1))).toNat = 2 ^ 23 - 2 ∧
    (s.add (ofNat (2 ^ 23 - 1))).isFresherThan s window = true ∧
    (next^[2 ^ 23 - 1] s).isFresherThan s window = true ∧
    ¬ (s.add (ofNat (2 ^ 23))).isFresherThan s window = true ∧
    ¬ s.isFresherThan (s.add (ofNat (2 ^ 23))) window = true ∧
    (s.add (ofNat (2 ^ 23))).isFresherThan s (window + 1) = true := by
  intro s window
  obtain ⟨hahead, hapart, hsteps, hlate⟩ := fresher_iff_ahead
  have hhalf := (hapart (s.add (ofNat (2 ^ 23))) s window (Nat.le_refl _)).2.mpr (.inr rfl)
  refine ⟨by decide, ?_, ?_, hhalf.1, hhalf.2, hlate _ _ _ (Nat.lt_succ_self _)⟩
  · exact (hahead s (2 ^ 23 - 1) window (by decide) (Nat.le_refl _)).mpr (by decide)
  · exact hsteps s (2 ^ 23 - 1) window (by decide) (by decide)

end Coap.SequenceNumber
