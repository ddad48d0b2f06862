/-
# Message IDs of open exchanges

The ID of an exchange is reserved for a lifetime that is computed beforehand.  The exchange is
open until its last wait is over, which is a matter of the first wait and of every doubling.
As long as the longest time an exchange can be open is less than the lifetime, every open
exchange holds its ID, and no other exchange with the same peer gets it.
-/
import Coap.Proofs.Exchange.Outcomes
import Coap.Proofs.Identifier.Reserved

namespace Coap.Outgoing

/-! ## How long an exchange is open -/

/-- How long `n` repetitions take, each with twice the wait before. -/
def waitsOf : Nat → Duration → Duration
  | 0, _ => 0
  | n + 1, wait => Instant.tick (wait * 2) + waitsOf n (wait * 2)

/-- The longest time an exchange can be open: the longest first wait, up to the next tick, and
the waits after it. -/
def longestOpen (policy : Transmission) : Duration :=
  firstWait policy 1 + 999999 + waitsOf policy.maxRetransmit (firstWait policy 1)

/-- When an exchange is given up that nobody answers. -/
def deadline (policy : Transmission) (x : OpenExchange) : Instant :=
  x.due + waitsOf (policy.maxRetransmit - x.repeated) x.wait

theorem waitsOf_mono (n : Nat) {d d' : Duration} (h : d ≤ d') : waitsOf n d ≤ waitsOf n d' := by
  induction n generalizing d d' with
  | zero => exact Nat.le_refl _
  | succ n ih =>
    have hdouble : d * 2 ≤ d' * 2 := Nat.mul_le_mul_right 2 h
    exact Nat.add_le_add (Instant.tick_mono hdouble) (ih hdouble)

theorem dvd_waitsOf (n : Nat) (d : Duration) : 1000000 ∣ waitsOf n d := by
  induction n generalizing d with
  | zero => exact Nat.dvd_zero _
  | succ n ih => exact Nat.dvd_add (Instant.dvd_tick _) (ih _)

theorem firstWait_le (policy : Transmission) {share : Rat} (h : share ≤ 1) :
    firstWait policy share ≤ firstWait policy 1 := by
  have hscaled := Rat.mul_le_mul_of_nonneg_left h
    (Rat.natCast_nonneg (a := policy.maxAckTimeout - policy.ackTimeout))
  exact Nat.add_le_add_left (Int.toNat_le_toNat (Rat.floor_monotone hscaled)) _

variable {s : Outgoing} {now t : Instant} {key : MessageKey} {x : OpenExchange} {event : Event}
  {history : History}

theorem lt_of_le_due {policy : Transmission} {expiry : Instant} (ht : t ≤ x.due)
    (h : deadline policy x < expiry) : t < expiry :=
  Nat.lt_of_le_of_lt (Nat.le_trans ht (Nat.le_add_right ..)) h

/-- An exchange that begins now is not open for longer than the longest time. -/
theorem deadline_newExchange_le (m : Message) (hshare : s.shares.next.1 ≤ 1) :
    deadline s.policy (s.newExchange t m) ≤ t + longestOpen s.policy := by
  have hwait := firstWait_le s.policy hshare
  have hdue : (s.newExchange t m).due ≤ t + firstWait s.policy 1 + 999999 :=
    Nat.le_trans (Instant.tick_le _) (Nat.add_le_add_right (Nat.add_le_add_left hwait t) _)
  have hrest := waitsOf_mono s.policy.maxRetransmit hwait
  calc deadline s.policy (s.newExchange t m)
      = (s.newExchange t m).due + waitsOf s.policy.maxRetransmit (firstWait s.policy _) := rfl
    _ ≤ t + firstWait s.policy 1 + 999999 +
        waitsOf s.policy.maxRetransmit (firstWait s.policy 1) := Nat.add_le_add hdue hrest
    _ = t + longestOpen s.policy := by simp only [longestOpen, Nat.add_assoc]

/-- A repetition in time does not move the deadline. -/
theorem deadline_again {policy : Transmission} (hdue : 1000000 ∣ x.due)
    (hlt : x.repeated < policy.maxRetransmit) :
    deadline policy (again x x.due) = deadline policy x := by
  have hleft : policy.maxRetransmit - x.repeated = policy.maxRetransmit - (x.repeated + 1) + 1 := by
    omega
  unfold deadline again
  rw [Instant.tick_add hdue, hleft, waitsOf, Nat.add_assoc]

/-! ## Time -/

/-- What happens does so in the order of time, and when it happens nothing is overdue.  What is
due at the same time can happen in any order. -/
def OnTime (s : Outgoing) (now : Instant) : History → Prop
  | [] => True
  | (t, event) :: rest => now ≤ t ∧ t ≤ s.nextDue ∧ OnTime (s.step t event) t rest

instance decidableOnTime :
    (s : Outgoing) → (now : Instant) → (history : History) → Decidable (s.OnTime now history)
  | _, _, [] => .isTrue trivial
  | s, _, (t, event) :: rest =>
    have := decidableOnTime (s.step t event) t rest
    inferInstanceAs (Decidable (_ ∧ _ ∧ _))

theorem le_nextDue_iff :
    t ≤ s.nextDue ↔ t ≤ s.nextPurge ∧ ∀ key x, s.exchanges.get? key = some x → t ≤ x.due := by
  have hdue : (∀ key x, s.exchanges.get? key = some x → t ≤ x.due) ↔
      ∀ due ∈ s.exchanges.entries.map (·.2.due), t ≤ due := by
    rw [List.forall_mem_map]
    exact ⟨fun h e he => h e.1 e.2 (Table.mem_entries_iff.mp he),
      fun h key x hx => h (key, x) (Table.mem_entries_iff.mpr hx)⟩
  rw [hdue, nextDue, Clock.earliest?]
  cases hmin : (s.exchanges.entries.map (·.2.due)).min? with
  | none =>
    rw [List.min?_eq_none_iff.mp hmin]
    simp [Clock.earlier]
  | some u => rw [← List.le_min?_iff hmin, Clock.earlier, Nat.le_min]

/-! ## An open exchange holds its ID -/

/-- The ID of an open exchange is reserved for longer than the exchange can be open. -/
def Covered (s : Outgoing) (key : MessageKey) (x : OpenExchange) : Prop :=
  1000000 ∣ x.due ∧ ∃ expiry, deadline s.policy x < expiry ∧
    s.ids.Reserves key.peer key.id expiry

/-- All open exchanges hold their IDs, and so will those that are opened later. -/
structure Held (s : Outgoing) : Prop where
  sound : s.Sound
  covered : ∀ key x, s.exchanges.get? key = some x → s.Covered key x
  shares_le : ∀ i, s.shares.value i ≤ 1
  longest_lt : longestOpen s.policy < s.ids.lifetime

theorem lifetime_step : (s.step t event).ids.lifetime = s.ids.lifetime := by
  obtain ⟨-, -, h | ⟨peer, h⟩ | h⟩ := frame_step s t event
  · rw [h]
  · rw [h, MessageIdPool.lifetime_issue]
  · rw [h]
    rfl

theorem reserves_step (event : Event) {peer : Endpoint} {id : MessageId} {expiry : Instant}
    (h : s.ids.Reserves peer id expiry) (ht : t < expiry) :
    (s.step t event).ids.Reserves peer id expiry := by
  obtain ⟨-, -, hids | ⟨p, hids⟩ | hids⟩ := frame_step s t event
  · rwa [hids]
  · rw [hids]
    exact h.issue ht
  · rw [hids]
    exact h.purge ht

/-- No exchange gets an ID that an open one holds. -/
theorem Held.fresh (h : s.Held) (hdue : ∀ key x, s.exchanges.get? key = some x → t ≤ x.due)
    (hopens : s.Opens t key event) : s.exchanges.get? key = none := by
  obtain ⟨m, -, -, hissued, -⟩ := step_of_opens hopens
  by_contra hopen
  obtain ⟨x, hx⟩ := Option.ne_none_iff_exists'.mp hopen
  obtain ⟨-, expiry, hlt, hreserves⟩ := h.covered key x hx
  exact hreserves.not_issued (lt_of_le_due (hdue key x hx) hlt) hissued

theorem Held.covered_step (h : s.Held)
    (hdue : ∀ key x, s.exchanges.get? key = some x → t ≤ x.due)
    (hx : (s.step t event).exchanges.get? key = some x) : (s.step t event).Covered key x := by
  rw [Covered, policy_step]
  by_cases hopens : s.Opens t key event
  · obtain ⟨m, -, -, hissued, -, hstep⟩ := step_of_opens hopens
    rw [hstep, Table.get?_insert_self] at hx
    cases hx
    refine ⟨Instant.dvd_tick _, t + s.ids.lifetime, ?_, ?_⟩
    · exact Nat.lt_of_le_of_lt (deadline_newExchange_le _ (h.shares_le _))
        (Nat.add_lt_add_left h.longest_lt t)
    · rw [hstep]
      exact MessageIdPool.reserves_of_issue hissued
  · cases hbefore : s.exchanges.get? key with
    | none =>
      rw [(silent_step h.sound hbefore hopens).2.2] at hx
      cases hx
    | some x₀ =>
      obtain ⟨htick, expiry, hlt, hreserves⟩ := h.covered key x₀ hbefore
      have ht : t ≤ x₀.due := hdue key x₀ hbefore
      have hkept := reserves_step event hreserves (lt_of_le_due ht hlt)
      have hturn := turn_step h.sound hbefore hopens
      rw [hx] at hturn
      generalize s.publishedFor t key event = events at hturn
      generalize s.repeatedFor t key event = sent at hturn
      cases hturn with
      | rests => exact ⟨htick, expiry, hlt, hkept⟩
      | repeats hover hless =>
        -- The timer goes off exactly when the wait is over, so the deadline stays.
        obtain rfl : t = x₀.due := Nat.le_antisymm ht hover.2
        exact ⟨Instant.dvd_tick _, expiry, by rwa [deadline_again htick hless], hkept⟩

theorem Held.step (h : s.Held) (hdue : ∀ key x, s.exchanges.get? key = some x → t ≤ x.due) :
    (s.step t event).Held where
  sound := sound_step h.sound
  covered _ _ := h.covered_step hdue
  shares_le := by
    rw [(frame_step ..).2.1]
    exact h.shares_le
  longest_lt := by
    rw [policy_step, lifetime_step]
    exact h.longest_lt

/-- **While every exchange holds its ID, no ID is given away twice.** -/
theorem Held.freshIds (h : s.Held) (hontime : s.OnTime now history) : s.FreshIds history := by
  induction history generalizing s now with
  | nil => trivial
  | cons e rest ih =>
    obtain ⟨-, hnext, hrest⟩ := hontime
    obtain ⟨-, hdue⟩ := le_nextDue_iff.mp hnext
    exact ⟨fun key hopens => h.fresh hdue hopens, ih (h.step hdue) hrest⟩

end Coap.Outgoing
