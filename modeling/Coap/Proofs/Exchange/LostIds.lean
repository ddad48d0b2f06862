/-
# Exchanges that outlive the reservation of their IDs

If an exchange can be open for as long as its ID is reserved, or longer, then there is a run in
which nothing is late and in which an open exchange loses its ID to another one: a message is
sent, nobody answers, and when the last wait ends its peer is forgotten just before the next
message goes out.  So the longest time an exchange can be open decides whether message IDs are
unique.
-/
import Coap.Config.Basic
import Coap.Proofs.Exchange.OpenIds

namespace Coap.Outgoing

variable {s : Outgoing} {now t : Instant} {key : MessageKey} {x : OpenExchange} {history : History}

/-! ## Nobody answers -/

/-- Nothing but time passes: one exchange is open, and the IDs for its peer are not reserved for
longer than it can be. -/
structure Waiting (s : Outgoing) (key : MessageKey) (x : OpenExchange) (now finish : Instant) :
    Prop where
  entries : s.exchanges.entries = [(key, x)]
  repeated_le : x.repeated ≤ s.policy.maxRetransmit
  atTick : 1000000 ∣ x.due
  le_due : now ≤ x.due
  deadline_eq : deadline s.policy x = finish
  le_purge : now ≤ s.nextPurge
  purge_le : s.nextPurge ≤ finish
  dvd_purge : purgeInterval ∣ s.nextPurge
  lapsing : ∀ issued, s.ids.peers.get? key.peer = some issued →
    ∀ expiry ∈ issued.expiries.toList, expiry ≤ finish
  first : ∀ i, s.ids.firstIds.value i = key.id

theorem le_nextDue_of_single (h : s.exchanges.entries = [(key, x)]) (hpurge : t ≤ s.nextPurge)
    (hdue : t ≤ x.due) : t ≤ s.nextDue := by
  rw [nextDue, h]
  exact Nat.le_min.mpr ⟨hpurge, hdue⟩

/-- The IDs are looked through, and the exchange goes on. -/
theorem Waiting.purge {finish : Instant} (h : s.Waiting key x now finish)
    (hdue : s.nextPurge ≤ x.due) (hlt : s.nextPurge < finish) (hfinish : purgeInterval ∣ finish) :
    (s.step s.nextPurge .purge).Waiting key x s.nextPurge finish := by
  have hstep : s.step s.nextPurge .purge =
      { s with ids := s.ids.purge s.nextPurge, nextPurge := s.nextPurge + purgeInterval } := by
    rw [step, purgeIds, if_pos (Nat.le_refl _)]
  have hnext : s.nextPurge + purgeInterval ≤ finish := by
    obtain ⟨i, hi⟩ := h.dvd_purge
    obtain ⟨j, hj⟩ := hfinish
    rw [hi, hj] at hlt ⊢
    have hij : i < j := Nat.lt_of_mul_lt_mul_left hlt
    rw [← Nat.mul_succ]
    exact Nat.mul_le_mul_left _ hij
  rw [hstep]
  refine ⟨h.entries, h.repeated_le, h.atTick, hdue, h.deadline_eq, Nat.le_add_right .., hnext,
    Nat.dvd_add h.dvd_purge (Nat.dvd_refl _), ?_, h.first⟩
  intro issued hissued expiry hexpiry
  rw [MessageIdPool.get?_purge] at hissued
  obtain ⟨hretired, -⟩ := Option.filter_eq_some_iff.mp hissued
  obtain ⟨before, hbefore, rfl⟩ := Option.map_eq_some_iff.mp hretired
  rw [IssuedIds.retire, Queue.toList_dropWhile] at hexpiry
  exact h.lapsing before hbefore expiry (List.dropWhile_sublist _ |>.subset hexpiry)

/-- The message is repeated, and the exchange goes on. -/
theorem Waiting.timers {finish : Instant} (h : s.Waiting key x now finish)
    (hpurge : x.due ≤ s.nextPurge) (hlt : x.repeated < s.policy.maxRetransmit) :
    (s.step x.due (.timers fun _ => true)).Waiting key (again x x.due) x.due finish := by
  have hentries : (s.step x.due (.timers fun _ => true)).exchanges.entries =
      [(key, again x x.due)] := by
    simp [step, fireChosen, Table.filterMapValues, h.entries, OpenExchange.renew?, hlt, again]
  refine ⟨hentries, hlt, Instant.dvd_tick _, ?_, ?_, hpurge, h.purge_le, h.dvd_purge, h.lapsing,
    h.first⟩
  · show x.due ≤ (x.due + x.wait * 2).tick
    rw [Instant.tick_add h.atTick]
    exact Nat.le_add_right ..
  · exact (deadline_again h.atTick hlt).trans h.deadline_eq

theorem OnTime.earlier {before : Instant} (h : s.OnTime now history) (hle : before ≤ now) :
    s.OnTime before history := by
  cases history with
  | nil => trivial
  | cons e rest => exact ⟨Nat.le_trans hle h.1, h.2⟩

/-- The exchange waits until its last wait is over. -/
theorem Waiting.to_finish {s : Outgoing} {now finish : Instant} {x : OpenExchange}
    (h : s.Waiting key x now finish) (hfinish : purgeInterval ∣ finish) :
    ∃ history x', (s.run history).Waiting key x' finish finish ∧
      ∀ rest, (s.run history).OnTime finish rest → s.OnTime now (history ++ rest) := by
  have hover : x.due ≤ finish := h.deadline_eq ▸ Nat.le_add_right ..
  -- Whatever is due first happens next: the IDs are looked through, or the message is repeated.
  by_cases hpurge : s.nextPurge ≤ x.due ∧ s.nextPurge < finish
  · have hnext := h.purge hpurge.1 hpurge.2 hfinish
    have hless : finish - (s.step s.nextPurge .purge).nextPurge < finish - s.nextPurge := by
      rw [step, purgeIds, if_pos (Nat.le_refl _)]
      exact Nat.sub_lt_sub_left hpurge.2 (Nat.lt_add_of_pos_right (by decide))
    obtain ⟨history, x', hlast, hontime⟩ := hnext.to_finish hfinish
    exact ⟨(s.nextPurge, .purge) :: history, x', hlast, fun rest hrest =>
      ⟨h.le_purge, le_nextDue_of_single h.entries (Nat.le_refl _) hpurge.1, hontime rest hrest⟩⟩
  · have hdue : x.due ≤ s.nextPurge := by
      rcases Nat.le_total s.nextPurge x.due with hle | hle
      · exact Nat.le_trans hover (Nat.le_of_not_lt fun hlt => hpurge ⟨hle, hlt⟩)
      · exact hle
    by_cases hlt : x.repeated < s.policy.maxRetransmit
    · have hnext := h.timers hdue hlt
      have hless := Nat.sub_lt_sub_left hlt (Nat.lt_succ_self x.repeated)
      obtain ⟨history, x', hlast, hontime⟩ := hnext.to_finish hfinish
      exact ⟨(x.due, .timers fun _ => true) :: history, x', hlast, fun rest hrest =>
        ⟨h.le_due, le_nextDue_of_single h.entries hdue (Nat.le_refl _), hontime rest hrest⟩⟩
    · -- No repetition is left, and the IDs are looked through when the wait ends.
      have hend : x.due = finish := by
        rw [← h.deadline_eq, deadline, Nat.sub_eq_zero_of_le (Nat.le_of_not_lt hlt)]
        rfl
      exact ⟨[], x, { h with le_due := Nat.le_of_eq hend.symm, le_purge := hend ▸ hdue },
        fun rest hrest => hrest.earlier (Nat.le_trans h.le_due hover)⟩
termination_by (finish - s.nextPurge) + (s.policy.maxRetransmit - x.repeated)
decreasing_by
  · rw [policy_step]
    exact Nat.add_lt_add_right hless _
  · rw [policy_step]
    exact Nat.add_lt_add_left hless _

/-- At its end, the exchange loses its ID to another one if its peer is forgotten first. -/
theorem Waiting.not_freshIds {finish : Instant} {m : Message}
    (h : s.Waiting key x finish finish) (htype : m.type = .confirmable) :
    s.OnTime finish [(finish, .purge), (finish, .send key.peer m)] ∧
      ¬ s.FreshIds [(finish, .purge), (finish, .send key.peer m)] := by
  have hstep : s.step finish .purge =
      { s with ids := s.ids.purge finish, nextPurge := finish + purgeInterval } := by
    rw [step, purgeIds, if_pos h.purge_le]
  constructor
  · refine ⟨Nat.le_refl _, le_nextDue_of_single h.entries h.le_purge h.le_due, Nat.le_refl _, ?_,
      trivial⟩
    rw [hstep]
    exact le_nextDue_of_single h.entries (Nat.le_add_right ..) h.le_due
  · intro hfresh
    obtain ⟨-, hagain, -⟩ := hfresh
    have hforgotten : (s.step finish .purge).ids.peers.get? key.peer = none := by
      rw [hstep]
      exact MessageIdPool.get?_purge_of_lapsed h.lapsing
    have hissued : ((s.step finish .purge).ids.issue finish key.peer).1 = .ok key.id := by
      rw [MessageIdPool.issue_eq_ok_iff, MessageIdPool.issuedFor, hforgotten, hstep]
      exact congrArg some (h.first _)
    have hopen : (s.step finish .purge).exchanges.get? key = some x := by
      rw [hstep]
      refine Table.mem_entries_iff.mp ?_
      rw [h.entries]
      exact List.mem_singleton_self _
    have hnone := hagain key (opens_of_issued htype hissued)
    rw [hopen] at hnone
    cases hnone

/-! ## When IDs are unique -/

/-- This layer of a node, at the start of the clock. -/
def ofConfig (c : Config) (firstIds : Draws MessageId) (shares : Draws Rat) : Outgoing :=
  start c.transmission { lifetime := c.exchangeLifetime, firstIds } shares

theorem held_ofConfig {c : Config} {firstIds : Draws MessageId} {shares : Draws Rat}
    (hlt : longestOpen c.transmission < c.exchangeLifetime) (hshares : ∀ i, shares.value i ≤ 1) :
    (ofConfig c firstIds shares).Held :=
  ⟨sound_start .., by rintro key x ⟨⟩, hshares, hlt⟩

/-- What has to be added to reach a multiple. -/
theorem dvd_sub_mod_add {k n : Nat} (hk : 0 < k) : k ∣ (k - n % k) + n := by
  have hlt := Nat.mod_lt n hk
  have hdiv := Nat.mod_add_div n k
  have hsum : (k - n % k) + n = k + k * (n / k) := by omega
  exact hsum ▸ Nat.dvd_add (Nat.dvd_refl k) (Nat.dvd_mul_right ..)

/-- A message whose exchange can outlive its reservation, sent at a time that lets this happen:
the waits last as long as they can, and the IDs are looked through when the last one ends. -/
theorem waiting_of_longest (c : Config) (key : MessageKey) {start : Instant} {m : Message}
    (htype : m.type = .confirmable) (hstart : start ≤ purgeInterval)
    (hfinish : purgeInterval ∣ start + longestOpen c.transmission)
    (hlong : purgeInterval ≤ longestOpen c.transmission)
    (hle : c.exchangeLifetime ≤ longestOpen c.transmission) :
    ∃ x, ((ofConfig c (.constant key.id) (.constant 1)).step start (.send key.peer m)).Waiting
      key x start (start + longestOpen c.transmission) := by
  let s := ofConfig c (.constant key.id) (.constant 1)
  have hopens : s.Opens start key (.send key.peer m) := opens_of_issued htype rfl
  obtain ⟨_, hevent, -, -, -, hstep⟩ := step_of_opens hopens
  cases hevent
  -- The first wait ends just after a tick, so that nearly a whole one is added to it.
  have htick : 1000000 ∣ start + firstWait c.transmission 1 + 999999 := by
    have hsum : start + longestOpen c.transmission =
        start + firstWait c.transmission 1 + 999999 +
          waitsOf c.transmission.maxRetransmit (firstWait c.transmission 1) := by
      simp only [longestOpen, Nat.add_assoc]
    have hwhole : 1000000 ∣ start + longestOpen c.transmission :=
      Nat.dvd_trans (by decide) hfinish
    rw [hsum] at hwhole
    exact (Nat.dvd_add_left (dvd_waitsOf _ _)).mp hwhole
  refine ⟨s.newExchange start { m with id := key.id }, ?_⟩
  rw [show (ofConfig c _ _).step start (.send key.peer m) = _ from hstep]
  refine ⟨rfl, Nat.zero_le _, Instant.dvd_tick _, ?_, ?_, hstart, ?_, Nat.dvd_refl _, ?_,
    fun _ => rfl⟩
  · exact Nat.le_trans (Nat.le_add_right ..) (Instant.le_tick _)
  · calc deadline c.transmission (s.newExchange start { m with id := key.id })
        = Instant.tick (start + firstWait c.transmission 1) +
            waitsOf c.transmission.maxRetransmit (firstWait c.transmission 1) := rfl
      _ = start + longestOpen c.transmission := by
        rw [Instant.tick_eq_add htick]
        simp only [longestOpen, Nat.add_assoc]
  · exact Nat.le_trans hlong (Nat.le_add_left ..)
  · intro issued hissued expiry hexpiry
    rw [MessageIdPool.peers_issue, Table.get?_insert_self] at hissued
    cases hissued
    obtain rfl : expiry = start + c.exchangeLifetime := List.mem_singleton.mp hexpiry
    exact Nat.add_le_add_left hle start

/-- If the lifetime is not longer than an exchange can be open, an ID can be given away again. -/
theorem exists_reused (c : Config) (hle : c.exchangeLifetime ≤ longestOpen c.transmission)
    (hpurge : purgeInterval ≤ longestOpen c.transmission) :
    ∃ history, (ofConfig c (.constant 0) (.constant 1)).OnTime 0 history ∧
      ¬ (ofConfig c (.constant 0) (.constant 1)).FreshIds history := by
  let key : MessageKey := ⟨⟨0⟩, 0⟩
  let m : Message := { type := .confirmable, code := .request .get, id := 0 }
  -- The start that makes the last wait end when the message IDs are looked through.
  let start := purgeInterval - longestOpen c.transmission % purgeInterval
  have hfinish : purgeInterval ∣ start + longestOpen c.transmission :=
    dvd_sub_mod_add (by decide)
  obtain ⟨x, hwaiting⟩ :=
    waiting_of_longest c key (m := m) rfl (Nat.sub_le ..) hfinish hpurge hle
  obtain ⟨history, x', hlast, hontime⟩ := hwaiting.to_finish hfinish
  obtain ⟨hlate, hnot⟩ := hlast.not_freshIds (m := m) rfl
  exact ⟨(start, .send key.peer m) :: (history ++ _),
    ⟨Nat.zero_le _, Nat.sub_le .., hontime _ hlate⟩,
    fun hfresh => hnot (freshIds_append.mp hfresh.2).2⟩

/-- **When message IDs are unique.**  Whatever the random choices, and whatever happens as long
as nothing is late: no confirmable message gets the ID of an open exchange with its peer, exactly
if the longest time an exchange can be open is less than the lifetime for which its ID is
reserved. -/
theorem unique_ids_iff (c : Config) (policy : Transmission) :
    (∀ firstIds shares, (∀ i, 0 ≤ shares.value i ∧ shares.value i ≤ 1) → ∀ history,
      (ofConfig (c.withTransmission policy) firstIds shares).OnTime 0 history →
      (ofConfig (c.withTransmission policy) firstIds shares).FreshIds history) ↔
    longestOpen policy < policy.exchangeLifetime := by
  constructor
  · intro hunique
    by_contra hlong
    have hle : policy.exchangeLifetime ≤ longestOpen policy := Nat.le_of_not_lt hlong
    have hlatency : maxLatency * 2 ≤ policy.exchangeLifetime :=
      Nat.le_trans (Nat.le_add_left ..) (Nat.le_add_right ..)
    have hpurge : purgeInterval ≤ maxLatency * 2 := by decide +kernel
    obtain ⟨history, hontime, hreused⟩ := exists_reused (c.withTransmission policy) hle
      (Nat.le_trans hpurge (Nat.le_trans hlatency hle))
    exact hreused (hunique _ _ (fun _ => ⟨show (0 : Rat) ≤ 1 by decide, Rat.le_refl⟩) history
      hontime)
  · intro hlt firstIds shares hshares history hontime
    exact (held_ofConfig hlt fun i => (hshares i).2).freshIds hontime

/-- With the usual parameters, an ID is not given away while a message is being repeated. -/
theorem unique_ids_of_standard :
    let s := ofConfig (Config.standard.withTransmission .standard) (.constant 1000) (.constant 1)
    let request : Message := { type := .confirmable, code := .request .get, id := 0 }
    let history : History := [(0, .send ⟨1⟩ request), (Duration.ofSeconds 3, .timers fun _ => true),
      (Duration.ofSeconds 4, .send ⟨1⟩ request)]
    longestOpen .standard < Transmission.standard.exchangeLifetime ∧ s.OnTime 0 history ∧
      s.FreshIds history := by
  intro s request history
  have hlt : longestOpen .standard < Transmission.standard.exchangeLifetime := by decide +kernel
  have hontime : s.OnTime 0 history := by decide +kernel
  have hunique := (unique_ids_iff .standard .standard).mpr hlt
  exact ⟨hlt, hontime, hunique _ _ (fun _ => ⟨show (0 : Rat) ≤ 1 by decide, Rat.le_refl⟩) _
    hontime⟩

/-- With a wait of five minutes, a message ID is given away again while its exchange is open. -/
theorem open_id_issued_again :
    let policy : Transmission := ⟨Duration.ofSeconds 300, 1, 0⟩
    let s := ofConfig (Config.standard.withTransmission policy) (.constant 1000) (.constant 0)
    let request : Message := { type := .confirmable, code := .request .get, id := 0 }
    let history : History := (0, .send ⟨1⟩ request) ::
      (List.range 21).map (fun i => (Duration.ofSeconds (10 * (i + 1)), .purge)) ++
        [(Duration.ofSeconds 210, .send ⟨1⟩ request)]
    Transmission.make (Duration.ofSeconds 300) (.finite 1) 0 = .ok policy ∧
      s.OnTime 0 history ∧ ¬ s.FreshIds history := by
  decide +kernel

end Coap.Outgoing
