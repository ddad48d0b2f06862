/-
# When messages are repeated

The waits of an exchange double, so that its first wait fixes when each of them ends: the one
before the `k`th repetition, `2 ^ k - 1` first waits after the message was sent.  As long as the
timer of the exchange goes off in time, the message is repeated at these moments and at no others,
until the exchange is closed; the wait after the last repetition is the one that ends in failure.
-/
import Coap.Proofs.Exchange.Outcomes
import Mathlib.Algebra.Order.Field.Basic
import Mathlib.Algebra.Order.Field.Rat
import Mathlib.Tactic.NormNum
import Mathlib.Tactic.Positivity

namespace Coap

/-- A time that is on a tick is not rounded. -/
theorem Instant.tick_of_dvd {t : Nat} (h : 1000000 ∣ t) : Instant.tick t = t :=
  tick_add h 0

namespace Outgoing

/-! ## The ends of the waits -/

/-- When the `k`th wait ends of an exchange that began at a time with a first wait. -/
def endOfWait (start : Instant) (wait : Duration) (k : Nat) : Instant :=
  Instant.tick (start + (2 ^ k - 1) * wait)

variable {start : Instant} {wait : Duration}

/-- On a clock that shows whole milliseconds the waits end exactly. -/
theorem endOfWait_eq (hstart : 1000000 ∣ start) (hwait : 1000000 ∣ wait) (k : Nat) :
    endOfWait start wait k = start + (2 ^ k - 1) * wait := by
  apply Instant.tick_of_dvd
  exact Nat.dvd_add hstart (Nat.dvd_mul_left_of_dvd hwait _)

theorem endOfWait_succ (hwait : 1000000 ∣ wait) (k : Nat) :
    endOfWait start wait (k + 1) = endOfWait start wait k + 2 ^ k * wait := by
  have hpos : 1 ≤ 2 ^ k := Nat.one_le_two_pow
  have hsum : start + (2 ^ (k + 1) - 1) * wait = 2 ^ k * wait + (start + (2 ^ k - 1) * wait) := by
    have hdouble : 2 ^ (k + 1) - 1 = 2 ^ k + (2 ^ k - 1) := by
      rw [Nat.pow_succ]
      omega
    rw [hdouble, Nat.add_mul]
    exact Nat.add_left_comm ..
  rw [endOfWait, hsum, Instant.tick_add (Nat.dvd_mul_left_of_dvd hwait _), Nat.add_comm]
  rfl

theorem endOfWait_lt_succ (hwait : 1000000 ∣ wait) (hpos : 0 < wait) (k : Nat) :
    endOfWait start wait k < endOfWait start wait (k + 1) := by
  rw [endOfWait_succ hwait]
  exact Nat.lt_add_of_pos_right (Nat.mul_pos (Nat.two_pow_pos k) hpos)

theorem endOfWait_mono (hwait : 1000000 ∣ wait) {j k : Nat} (hle : j ≤ k) :
    endOfWait start wait j ≤ endOfWait start wait k := by
  induction hle with
  | refl => exact Nat.le_refl _
  | step _ ih =>
    rw [endOfWait_succ hwait]
    exact Nat.le_trans ih (Nat.le_add_right ..)

theorem endOfWait_lt_iff (hwait : 1000000 ∣ wait) (hpos : 0 < wait) {j k : Nat} :
    endOfWait start wait j < endOfWait start wait k ↔ j < k := by
  constructor
  · intro hlt
    by_contra hle
    exact absurd hlt (Nat.not_lt_of_le (endOfWait_mono hwait (Nat.le_of_not_lt hle)))
  · intro hlt
    exact Nat.lt_of_lt_of_le (endOfWait_lt_succ hwait hpos j) (endOfWait_mono hwait hlt)

/-- Every wait in the permitted range can be drawn. -/
theorem exists_share (policy : Transmission) (hlow : policy.ackTimeout ≤ wait)
    (hhigh : wait ≤ policy.maxAckTimeout) :
    ∃ share : Rat, 0 ≤ share ∧ share ≤ 1 ∧ firstWait policy share = wait := by
  obtain ⟨excess, rfl⟩ := Nat.exists_eq_add_of_le hlow
  let range := policy.maxAckTimeout - policy.ackTimeout
  have hexcess : excess ≤ range := Nat.le_sub_of_add_le' hhigh
  by_cases hrange : range = 0
  · refine ⟨0, le_refl _, by norm_num, ?_⟩
    have hnone : excess = 0 := Nat.le_zero.mp (hrange ▸ hexcess)
    rw [hnone, firstWait, mul_zero]
    rfl
  · have hpos : (0 : Rat) < (range : Rat) := by exact_mod_cast Nat.pos_of_ne_zero hrange
    refine ⟨excess / range, by positivity, ?_, ?_⟩
    · rw [div_le_one hpos]
      exact_mod_cast hexcess
    · show policy.ackTimeout + ((range : Rat) * (excess / range)).floor.toNat =
        policy.ackTimeout + excess
      rw [mul_div_cancel₀ _ (ne_of_gt hpos)]
      congr 1

variable {s : Outgoing} {t now : Instant} {key : MessageKey} {x x' : OpenExchange} {event : Event}
  {history before after : History} {m : Message}

/-! ## Repetitions with their times -/

/-- The messages with the ID of a key that are repeated to its peer in a history, and when. -/
def repetitionsAt (s : Outgoing) (key : MessageKey) : History → List (Instant × Message)
  | [] => []
  | (t, event) :: rest =>
    (s.repeatedFor t key event).map (t, ·) ++ repetitionsAt (s.step t event) key rest

/-- What happens does so in the order of time, and as long as the exchange of a key is open,
nothing happens after the end of its wait: its timer has gone off by then. -/
def Punctual (s : Outgoing) (key : MessageKey) (now : Instant) : History → Prop
  | [] => True
  | (t, event) :: rest =>
    now ≤ t ∧ (∀ x, s.exchanges.get? key = some x → t ≤ x.due) ∧
      Punctual (s.step t event) key t rest

instance decidablePunctual : (s : Outgoing) → (key : MessageKey) → (now : Instant) →
    (history : History) → Decidable (s.Punctual key now history)
  | _, _, _, [] => .isTrue trivial
  | s, key, now, (t, event) :: rest =>
    have := decidablePunctual (s.step t event) key t rest
    inferInstanceAs (Decidable (now ≤ t ∧ (∀ x ∈ s.exchanges.get? key, t ≤ x.due) ∧ _))

instance decidableNoneOpens : (s : Outgoing) → (key : MessageKey) → (history : History) →
    Decidable (s.NoneOpens key history)
  | _, _, [] => .isTrue trivial
  | s, key, (t, event) :: rest =>
    have := decidableNoneOpens (s.step t event) key rest
    inferInstanceAs (Decidable (¬ s.opened? t event = some key ∧ _))

theorem policy_run (s : Outgoing) (history : History) : (s.run history).policy = s.policy := by
  induction history generalizing s with
  | nil => rfl
  | cons e rest ih => exact (ih _).trans policy_step

theorem repetitionsAt_append (s : Outgoing) (key : MessageKey) (before after : History) :
    s.repetitionsAt key (before ++ after) =
      s.repetitionsAt key before ++ (s.run before).repetitionsAt key after := by
  induction before generalizing s with
  | nil => rfl
  | cons e rest ih =>
    rw [List.cons_append, repetitionsAt, repetitionsAt, ih, List.append_assoc]
    rfl

theorem repetitionsAt_eq_nil (h : s.repetitions key history = []) :
    s.repetitionsAt key history = [] := by
  induction history generalizing s with
  | nil => rfl
  | cons e rest ih =>
    obtain ⟨hfirst, hrest⟩ := List.append_eq_nil_iff.mp h
    rw [repetitionsAt, hfirst, ih hrest]
    rfl

theorem noneOpens_append :
    s.NoneOpens key (before ++ after) ↔
      s.NoneOpens key before ∧ (s.run before).NoneOpens key after := by
  induction before generalizing s with
  | nil => exact (iff_of_eq (true_and _)).symm
  | cons e rest ih =>
    rw [List.cons_append, NoneOpens, NoneOpens, ih, and_assoc]
    rfl

/-- Being punctual up to an event, and what that says of the event. -/
theorem Punctual.split (h : s.Punctual key now (before ++ (t, event) :: after)) :
    s.Punctual key now before ∧ (∀ e ∈ before, e.1 ≤ t) ∧ now ≤ t ∧
      ∀ x, (s.run before).exchanges.get? key = some x → t ≤ x.due := by
  induction before generalizing s now with
  | nil =>
    refine ⟨trivial, ?_, h.1, h.2.1⟩
    intro e he
    exact absurd he List.not_mem_nil
  | cons e rest ih =>
    obtain ⟨hnow, hdue, hrest⟩ := h
    obtain ⟨hpunctual, hbefore, hle, hlast⟩ := ih hrest
    refine ⟨⟨hnow, hdue, hpunctual⟩, ?_, Nat.le_trans hnow hle, hlast⟩
    intro e' he'
    rcases List.mem_cons.mp he' with rfl | he'
    · exact hle
    · exact hbefore e' he'

/-- A message is repeated when its timer goes off. -/
theorem exists_timers_of_mem_repetitionsAt (hs : s.Sound)
    (h : (t, m) ∈ s.repetitionsAt key history) :
    ∃ chosen : MessageKey → Bool, (t, .timers chosen) ∈ history ∧ chosen key = true := by
  induction history generalizing s with
  | nil => exact absurd h List.not_mem_nil
  | cons e rest ih =>
    obtain ⟨u, event⟩ := e
    rcases List.mem_append.mp h with hfirst | hrest
    · obtain ⟨m', hm', heq⟩ := List.mem_map.mp hfirst
      cases heq
      cases event with
      | timers chosen =>
        rw [repeatedFor_timers hs] at hm'
        split at hm'
        · split at hm'
          · next hdue => exact ⟨chosen, List.mem_cons_self, hdue.1⟩
          · exact absurd hm' List.not_mem_nil
        · exact absurd hm' List.not_mem_nil
      | _ => exact absurd hm' List.not_mem_nil
    · obtain ⟨chosen, hmem, hchosen⟩ := ih (sound_step hs) hrest
      exact ⟨chosen, List.mem_cons_of_mem _ hmem, hchosen⟩

/-! ## An exchange that keeps to its schedule -/

/-- An open exchange that has repeated its message so and so often is in the wait that comes
after as many doublings. -/
structure OnSchedule (start : Instant) (wait : Duration) (m : Message) (x : OpenExchange) :
    Prop where
  message : x.message = m
  wait_eq : x.wait = 2 ^ x.repeated * wait
  due_eq : x.due = endOfWait start wait (x.repeated + 1)

theorem onSchedule_newExchange (s : Outgoing) (t : Instant) (m : Message) :
    OnSchedule t (firstWait s.policy s.shares.next.1) m (s.newExchange t m) := by
  constructor
  · rfl
  · exact (Nat.one_mul _).symm
  · show Instant.tick (t + _) = Instant.tick (t + 1 * _)
    rw [Nat.one_mul]

/-- A repetition in time begins the next wait. -/
theorem OnSchedule.again (h : OnSchedule start wait m x) (hwait : 1000000 ∣ wait) :
    OnSchedule start wait m (again x x.due) := by
  have hdouble : x.wait * 2 = 2 ^ (x.repeated + 1) * wait := by
    rw [h.wait_eq, Nat.pow_succ, Nat.mul_right_comm]
  constructor
  · exact h.message
  · exact hdouble
  · show Instant.tick (x.due + x.wait * 2) = endOfWait start wait (x.repeated + 1 + 1)
    rw [hdouble, h.due_eq, endOfWait, Instant.tick_add (Instant.dvd_tick _),
      Instant.tick_of_dvd (Nat.dvd_mul_left_of_dvd hwait _)]
    exact (endOfWait_succ hwait _).symm

/-- What an exchange that is still open has been through: it kept to its schedule, and whenever
its timer went off it began another wait. -/
structure Kept (start : Instant) (wait : Duration) (m : Message) (s : Outgoing) (key : MessageKey)
    (x : OpenExchange) (history : History) (x' : OpenExchange) : Prop where
  onSchedule : OnSchedule start wait m x'
  repeated_le : x.repeated ≤ x'.repeated
  repetitions : s.repetitionsAt key history =
    (List.range' (x.repeated + 1) (x'.repeated - x.repeated)).map
      fun k => (endOfWait start wait k, m)
  le_due : ∀ e ∈ history, e.1 ≤ x'.due
  lt_due : ∀ u chosen, (u, .timers chosen) ∈ history → chosen key = true → u < x'.due

theorem OnSchedule.due_le (h : OnSchedule start wait m x) (h' : OnSchedule start wait m x')
    (hwait : 1000000 ∣ wait) (hle : x.repeated ≤ x'.repeated) : x.due ≤ x'.due := by
  rw [h.due_eq, h'.due_eq]
  exact endOfWait_mono hwait (Nat.succ_le_succ hle)

/-- An exchange without a repetition at the first event. -/
theorem Kept.rests (h : Kept start wait m (s.step t event) key x history x')
    (hx : OnSchedule start wait m x) (hwait : 1000000 ∣ wait) (ht : t ≤ x.due)
    (hsilent : s.repeatedFor t key event = [])
    (hdue : ∀ chosen, event = .timers chosen → ¬ IsDue t chosen key x) :
    Kept start wait m s key x ((t, event) :: history) x' := by
  have hmono := hx.due_le h.onSchedule hwait h.repeated_le
  refine ⟨h.onSchedule, h.repeated_le, ?_, ?_, ?_⟩
  · rw [repetitionsAt, hsilent, h.repetitions]
    rfl
  · intro e he
    rcases List.mem_cons.mp he with rfl | he
    · exact Nat.le_trans ht hmono
    · exact h.le_due e he
  · intro u chosen hmem hchosen
    rcases List.mem_cons.mp hmem with hfirst | hmem
    · cases hfirst
      apply Nat.lt_of_lt_of_le _ hmono
      by_contra hle
      exact hdue chosen rfl ⟨hchosen, Nat.le_of_not_lt hle⟩
    · exact h.lt_due u chosen hmem hchosen

/-- An exchange with a repetition at the first event. -/
theorem Kept.repeats {chosen : MessageKey → Bool}
    (h : Kept start wait m (s.step x.due (.timers chosen)) key (Outgoing.again x x.due) history x')
    (hx : OnSchedule start wait m x) (hwait : 1000000 ∣ wait) (hpos : 0 < wait)
    (hrepeated : s.repeatedFor x.due key (.timers chosen) = [x.message]) :
    Kept start wait m s key x ((x.due, .timers chosen) :: history) x' := by
  have hlt : x.due < x'.due := by
    rw [hx.due_eq, h.onSchedule.due_eq]
    exact (endOfWait_lt_iff hwait hpos).mpr (Nat.succ_lt_succ h.repeated_le)
  have hless : x.repeated + 1 ≤ x'.repeated := h.repeated_le
  refine ⟨h.onSchedule, Nat.le_of_succ_le hless, ?_, ?_, ?_⟩
  · have hcount : x'.repeated - x.repeated = (x'.repeated - (x.repeated + 1)) + 1 := by omega
    rw [repetitionsAt, hrepeated, h.repetitions, hcount, List.range'_succ, hx.due_eq, hx.message]
    rfl
  · intro e he
    rcases List.mem_cons.mp he with rfl | he
    · exact Nat.le_of_lt hlt
    · exact h.le_due e he
  · intro u chosen' hmem hchosen
    rcases List.mem_cons.mp hmem with hfirst | hmem
    · cases hfirst
      exact hlt
    · exact h.lt_due u chosen' hmem hchosen

/-- **An open exchange keeps to its schedule**, in a history in which its timer goes off in time
and its ID is not given away. -/
theorem kept_run (hs : s.Sound) (hx : s.exchanges.get? key = some x)
    (hschedule : OnSchedule start wait m x) (hwait : 1000000 ∣ wait) (hpos : 0 < wait)
    (hpunctual : s.Punctual key now history) (hnone : s.NoneOpens key history)
    (hx' : (s.run history).exchanges.get? key = some x') :
    Kept start wait m s key x history x' := by
  induction history generalizing s x now with
  | nil =>
    have hsame : x = x' := Option.some.inj (hx.symm.trans hx')
    subst hsame
    refine ⟨hschedule, Nat.le_refl _, ?_, ?_, ?_⟩
    · rw [Nat.sub_self]
      rfl
    · intro e he
      exact absurd he List.not_mem_nil
    · intro u chosen hmem
      exact absurd hmem List.not_mem_nil
  | cons e rest ih =>
    obtain ⟨t, event⟩ := e
    obtain ⟨hnot, hrest⟩ := hnone
    obtain ⟨-, hdue, hlater⟩ := hpunctual
    have ht : t ≤ x.due := hdue x hx
    have hturn := turn_step hs hx hnot
    generalize s.publishedFor t key event = events at hturn
    generalize hrepeated : s.repeatedFor t key event = sent at hturn
    generalize hstep : (s.step t event).exchanges.get? key = x'? at hturn
    -- an exchange that this event closes would not be open at the end
    have hopen : x'? ≠ none := by
      rintro rfl
      have hclosed := (silent_run (sound_step hs) hstep hrest).isClosed
      rw [show (s.step t event).run rest = s.run ((t, event) :: rest) from rfl, hx'] at hclosed
      cases hclosed
    cases hturn with
    | rests _ hquiet =>
      exact (ih (sound_step hs) hstep hschedule hlater hrest hx').rests hschedule hwait ht
        hrepeated hquiet
    | repeats hover =>
      obtain rfl : t = x.due := Nat.le_antisymm ht hover.2
      exact (ih (sound_step hs) hstep (hschedule.again hwait) hlater hrest hx').repeats hschedule
        hwait hpos hrepeated
    | acknowledged | reset | timedOut | cancelled => exact absurd rfl hopen

/-- What is left of an exchange, and of what happens under its key, once an event has ended it. -/
theorem turn_of_ends (hs : s.Sound) (hx : s.exchanges.get? key = some x)
    (hends : Ends key x.message.token event) :
    s.repeatedFor t key event = [] ∧ (s.step t event).exchanges.get? key = none := by
  have hnot : ¬ s.Opens t key event := by
    rcases hends with ⟨reply, rfl, -⟩ | rfl
    · simp [Opens, opened?]
    · simp [Opens, opened?]
  have hturn := turn_step hs hx hnot
  generalize s.publishedFor t key event = events at hturn
  generalize s.repeatedFor t key event = sent at hturn
  generalize (s.step t event).exchanges.get? key = x'? at hturn
  cases hturn with
  | rests hopen => exact absurd hends hopen
  | repeats | timedOut => simp [Ends] at hends
  | acknowledged | reset | cancelled => exact ⟨rfl, rfl⟩

/-- **Until an exchange is ended**, its message is repeated at the ends of its waits, those that
end before and perhaps the one that ends at the same time. -/
theorem repetitions_of_ends (hs : s.Sound) (hx : s.exchanges.get? key = some x)
    (hschedule : OnSchedule start wait m x) (hnew : x.repeated = 0) (hwait : 1000000 ∣ wait)
    (hpos : 0 < wait) (hpunctual : s.Punctual key now (before ++ (t, event) :: after))
    (hnone : s.NoneOpens key (before ++ (t, event) :: after))
    (hopen : (s.run before).exchanges.get? key ≠ none) (hends : Ends key m.token event) :
    ∃ j ≤ s.policy.maxRetransmit,
      s.repetitionsAt key (before ++ (t, event) :: after) =
        (List.range' 1 j).map (fun k => (endOfWait start wait k, m)) ∧
      ∀ k, 1 ≤ k → k ≤ s.policy.maxRetransmit → (k ≤ j ↔ endOfWait start wait k < t ∨
        endOfWait start wait k = t ∧
          ∃ chosen : MessageKey → Bool, (t, .timers chosen) ∈ before ∧ chosen key = true) := by
  obtain ⟨x', hx'⟩ := Option.ne_none_iff_exists'.mp hopen
  obtain ⟨hbefore, htimes, -, hdue⟩ := hpunctual.split
  obtain ⟨hnone, -, hafter⟩ := noneOpens_append.mp hnone
  have hkept := kept_run hs hx hschedule hwait hpos hbefore hnone hx'
  have hsound : (s.run before).Sound := sound_run hs
  obtain ⟨hsilent, hgone⟩ := turn_of_ends (t := t) hsound hx' (hkept.onSchedule.message ▸ hends)
  have hrest := (silent_run (sound_step hsound) hgone hafter).unrepeated
  have hlist : s.repetitionsAt key before =
      (List.range' 1 x'.repeated).map fun k => (endOfWait start wait k, m) := by
    have hlist := hkept.repetitions
    rwa [hnew, Nat.sub_zero] at hlist
  have hnext : t ≤ endOfWait start wait (x'.repeated + 1) := by
    rw [← hkept.onSchedule.due_eq]
    exact hdue x' hx'
  -- the message was repeated at the end of each wait that was over, and it is not repeated again
  refine ⟨x'.repeated, ?_, ?_, ?_⟩
  · have hbound := hsound.repeated key x' hx'
    rwa [policy_run] at hbound
  · rw [repetitionsAt_append, hlist, repetitionsAt, hsilent, repetitionsAt_eq_nil hrest]
    exact List.append_nil _
  · intro k hfirst _
    have hmem (hle : k ≤ x'.repeated) :
        (endOfWait start wait k, m) ∈ s.repetitionsAt key before := by
      rw [hlist]
      apply List.mem_map_of_mem
      rw [List.mem_range'_1]
      omega
    constructor
    · intro hle
      obtain ⟨chosen, htimer, hchosen⟩ := exists_timers_of_mem_repetitionsAt hs (hmem hle)
      rcases Nat.lt_or_eq_of_le (htimes _ htimer) with hlt | heq
      · exact .inl hlt
      · right
        have heq : endOfWait start wait k = t := heq
        rw [heq] at htimer
        exact ⟨heq, chosen, htimer, hchosen⟩
    · intro htime
      have hearlier : endOfWait start wait k < endOfWait start wait (x'.repeated + 1) := by
        rcases htime with hlt | ⟨heq, chosen, htimer, hchosen⟩
        · exact Nat.lt_of_lt_of_le hlt hnext
        · have hlt := hkept.lt_due t chosen htimer hchosen
          rw [hkept.onSchedule.due_eq] at hlt
          rwa [heq]
      exact Nat.le_of_lt_succ ((endOfWait_lt_iff hwait hpos).mp hearlier)

/-- **If nothing ends an exchange**, its message is repeated as often as the policy has it, and at
the end of the wait after that the exchange has failed. -/
theorem timedOut_of_unended (hs : s.Sound) (hx : s.exchanges.get? key = some x)
    (hschedule : OnSchedule start wait m x) (hnew : x.repeated = 0) (hwait : 1000000 ∣ wait)
    (hpos : 0 < wait) (hpunctual : s.Punctual key now history)
    (hnone : s.NoneOpens key history)
    (hunended : ∀ before e after, history = before ++ e :: after →
      (s.run before).exchanges.get? key ≠ none → ¬ Ends key m.token e.2)
    (hlong : ∃ e ∈ history, endOfWait start wait (s.policy.maxRetransmit + 1) < e.1) :
    let finish := endOfWait start wait (s.policy.maxRetransmit + 1)
    ∃ before chosen after, history = before ++ (finish, .timers chosen) :: after ∧
      s.repetitionsAt key before = (List.range' 1 s.policy.maxRetransmit).map
        (fun k => (endOfWait start wait k, m)) ∧
      s.publications key before = [] ∧
      (s.run before).repeatedFor finish key (.timers chosen) = [] ∧
      (s.run before).publishedFor finish key (.timers chosen) =
        [⟨key.peer, m.token, key.id, .timedOut (s.policy.maxRetransmit + 1)⟩] ∧
      ((s.run before).step finish (.timers chosen)).exchanges.get? key = none ∧
      ((s.run before).step finish (.timers chosen)).Silent key after := by
  intro finish
  have hopened : x.message = m := hschedule.message
  subst hopened
  have hfate := fate_run hs hx hnone
  cases hfate with
  | ongoing h =>
    -- an exchange that is open cannot have outlived its last wait
    obtain ⟨x', hx', -, -⟩ := h.isOpen
    obtain ⟨e, he, hlate⟩ := hlong
    have hkept := kept_run hs hx hschedule hwait hpos hpunctual hnone hx'
    have hbound : x'.repeated ≤ s.policy.maxRetransmit := by
      have hbound := (sound_run hs).repeated key x' hx'
      rwa [policy_run] at hbound
    have hle : e.1 ≤ finish := by
      apply Nat.le_trans (hkept.le_due e he)
      rw [hkept.onSchedule.due_eq]
      exact endOfWait_mono hwait (Nat.succ_le_succ hbound)
    exact absurd hlate (Nat.not_lt_of_le hle)
  | @closed before after t event hbefore hcloses hunrepeated hafter =>
    obtain ⟨x', hx', hmessage, -⟩ := hbefore.isOpen
    have hopen : (s.run before).exchanges.get? key ≠ none := by
      rw [hx']
      exact Option.some_ne_none x'
    have hquiet : ¬ Ends key x.message.token event := hunended before (t, event) after rfl hopen
    obtain ⟨hpast, -, -, hdue⟩ := hpunctual.split
    obtain ⟨hnonebefore, hnot, -⟩ := noneOpens_append.mp hnone
    have hkept := kept_run hs hx hschedule hwait hpos hpast hnonebefore hx'
    have hturn := turn_step (t := t) (sound_run hs) hx' hnot
    rw [policy_run] at hturn
    generalize hpublished : (s.run before).publishedFor t key event = events at hturn hcloses
    generalize (s.run before).repeatedFor t key event = sent at hturn
    generalize hgone : ((s.run before).step t event).exchanges.get? key = x'? at hturn
    -- of all that may close an exchange, only the end of its last wait is left
    cases hturn with
    | rests =>
      cases hcloses with
      | cancelled => exact absurd (.inr rfl) hquiet
    | repeats => cases hcloses
    | acknowledged hreply => exact absurd (.inl ⟨_, rfl, .inl hreply⟩) hquiet
    | reset hreply => exact absurd (.inl ⟨_, rfl, .inr hreply⟩) hquiet
    | cancelled => exact absurd (.inr (by rw [hmessage])) hquiet
    | @timedOut chosen hover hall =>
      have hlast : x'.repeated = s.policy.maxRetransmit := by
        have hsound : (s.run before).Sound := sound_run hs
        have hbound := hsound.repeated key x' hx'
        rw [policy_run] at hbound
        exact Nat.le_antisymm hbound hall
      have hfinish : t = finish := by
        have hend : x'.due = finish := by rw [hkept.onSchedule.due_eq, hlast]
        exact Nat.le_antisymm (hend ▸ hdue x' hx') (hend ▸ hover.2)
      subst hfinish
      have hlist := hkept.repetitions
      rw [hnew, Nat.sub_zero, hlast] at hlist
      rw [hmessage] at hpublished
      exact ⟨before, chosen, after, rfl, hlist, hbefore.unpublished, hunrepeated, hpublished,
        hgone, hafter⟩

/-- Parameters are accepted only if the wait is not zero. -/
theorem ackTimeout_pos_of_check {p : TransmissionParameters} (h : p.check = .ok ()) :
    0 < p.ackTimeout := by
  rw [TransmissionParameters.check] at h
  split at h
  · cases h
  · split at h
    · cases h
    · next hzero => exact Nat.pos_of_ne_zero hzero

/-- What parameters that are accepted have in common. -/
theorem make_spec {timeout : Duration} {factor : BinaryNumber} {n : Nat} {policy : Transmission}
    (h : Transmission.make timeout factor n = .ok policy) :
    policy.maxRetransmit = n ∧ 0 < policy.ackTimeout := by
  rw [Transmission.make] at h
  split at h
  · cases h
  · next hcheck =>
    have hpos : 0 < timeout := ackTimeout_pos_of_check hcheck
    cases factor with
    | finite q =>
      cases h
      exact ⟨rfl, hpos⟩
    | negativeZero | infinite | nan => cases h

/-- **Messages are repeated on schedule.**  Let a confirmable message be sent, with parameters that
make sense and any first wait of whole milliseconds, and let its timer go off in time.  Until its
ID is given to another message: if something ends the exchange, the message has been repeated,
with its ID, at the ends of the waits that were over before, and of the one that was over at the
same time if its timer came first.  If nothing does, it is repeated as often as the parameters
say; at the end of the wait after that, one event tells of the failure, the exchange is gone, and
nothing comes of it any more. -/
theorem repeated_on_schedule {timeout : Duration} {factor : BinaryNumber} {n : Nat}
    {policy : Transmission} (hpolicy : Transmission.make timeout factor n = .ok policy)
    (ids : MessageIdPool) (shares : Draws Rat) (earlier : History) (sentAt : Instant)
    (peer : Endpoint) (m m' : Message) (htype : m.type = .confirmable)
    (hsent : (((Outgoing.start policy ids shares).run earlier).send sentAt peer m).1 = .ok m')
    (hmillis : 1000000 ∣
      firstWait policy ((Outgoing.start policy ids shares).run earlier).shares.next.1) :
    let s := (Outgoing.start policy ids shares).run earlier
    let wait := firstWait policy s.shares.next.1
    let key : MessageKey := ⟨peer, m'.id⟩
    let s' := s.step sentAt (.send peer m)
    (∀ wait, policy.ackTimeout ≤ wait → wait ≤ policy.maxAckTimeout →
      ∃ share : Rat, 0 ≤ share ∧ share ≤ 1 ∧ firstWait policy share = wait) ∧
    (1000000 ∣ sentAt → ∀ k, endOfWait sentAt wait k = sentAt + (2 ^ k - 1) * wait) ∧
    (∀ before t event after, s'.Punctual key sentAt (before ++ (t, event) :: after) →
      s'.NoneOpens key (before ++ (t, event) :: after) →
      (s'.run before).exchanges.get? key ≠ none → Ends key m'.token event →
      ∃ j ≤ n, s'.repetitionsAt key (before ++ (t, event) :: after) =
          (List.range' 1 j).map (fun k => (endOfWait sentAt wait k, m')) ∧
        ∀ k, 1 ≤ k → k ≤ n → (k ≤ j ↔ endOfWait sentAt wait k < t ∨
          endOfWait sentAt wait k = t ∧
            ∃ chosen : MessageKey → Bool, (t, .timers chosen) ∈ before ∧ chosen key = true)) ∧
    ∀ history, s'.Punctual key sentAt history → s'.NoneOpens key history →
      (∀ before e after, history = before ++ e :: after →
        (s'.run before).exchanges.get? key ≠ none → ¬ Ends key m'.token e.2) →
      (∃ e ∈ history, endOfWait sentAt wait (n + 1) < e.1) →
      let finish := endOfWait sentAt wait (n + 1)
      ∃ before chosen after, history = before ++ (finish, .timers chosen) :: after ∧
        s'.repetitionsAt key before =
          (List.range' 1 n).map (fun k => (endOfWait sentAt wait k, m')) ∧
        s'.publications key before = [] ∧
        (s'.run before).repeatedFor finish key (.timers chosen) = [] ∧
        (s'.run before).publishedFor finish key (.timers chosen) =
          [⟨peer, m'.token, m'.id, .timedOut (n + 1)⟩] ∧
        ((s'.run before).step finish (.timers chosen)).exchanges.get? key = none ∧
        ((s'.run before).step finish (.timers chosen)).Silent key after := by
  intro s wait key s'
  obtain ⟨rfl, htimeout⟩ := make_spec hpolicy
  have hpos : 0 < wait := Nat.lt_of_lt_of_le htimeout (Nat.le_add_right ..)
  have hsound : s.Sound := sound_run (sound_start policy ids shares)
  have hsame : s.policy = policy := policy_run _ earlier
  -- the exchange that the message opens
  have hopens : s.Opens sentAt key (.send peer m) := opens_send_iff.mpr ⟨htype, m', hsent, rfl⟩
  obtain ⟨_, hevent, -, -, hnumbered, hstep⟩ := step_of_opens hopens
  cases hevent
  have hm' : m' = { m with id := m'.id } := Except.ok.inj (hsent.symm.trans hnumbered)
  have hx : s'.exchanges.get? key = some (s.newExchange sentAt m') := by
    rw [hm']
    exact (congrArg (fun s => s.exchanges.get? key) hstep).trans (Table.get?_insert_self ..)
  have hschedule : OnSchedule sentAt wait m' (s.newExchange sentAt m') := by
    have hnew := onSchedule_newExchange s sentAt m'
    rwa [hsame] at hnew
  have hsound' : s'.Sound := sound_step hsound
  have hsame' : s'.policy = policy := policy_step.trans hsame
  refine ⟨?_, ?_, ?_, ?_⟩
  · intro wait hlow hhigh
    exact exists_share policy hlow hhigh
  · intro hstart k
    exact endOfWait_eq hstart hmillis k
  · intro before t event after hpunctual hnone hopen hends
    have h := repetitions_of_ends hsound' hx hschedule rfl hmillis hpos hpunctual hnone hopen hends
    rwa [hsame'] at h
  · intro history hpunctual hnone hunended hlong finish
    have h := timedOut_of_unended hsound' hx hschedule rfl hmillis hpos hpunctual hnone hunended
    rw [hsame'] at h
    exact h hlong

/-- With one repetition and a first wait of two seconds: the message is repeated after two seconds,
also if it is acknowledged at that very moment; if nobody answers it has failed after six. -/
theorem repeated_after_two_seconds :
    let seconds := Duration.ofSeconds
    let policy : Transmission := ⟨seconds 2, 1, 1⟩
    let ids : MessageIdPool := { lifetime := policy.exchangeLifetime, firstIds := .constant 1000 }
    let request : Message := { type := .confirmable, code := .request .get, id := 0 }
    let sent : Message := { request with id := 1000 }
    let key : MessageKey := ⟨⟨1⟩, 1000⟩
    let s := Outgoing.start policy ids (.constant 0)
    let s' := s.step 0 (.send ⟨1⟩ request)
    let timers : Event := .timers fun _ => true
    let ack : Event := .receive ⟨1⟩ { type := .acknowledgement, code := .empty, id := 1000 }
    let answered : History := [(seconds 2, timers), (seconds 2, ack)]
    let unanswered : History := [(seconds 2, timers), (seconds 6, timers), (seconds 7, .purge)]
    Transmission.make (seconds 2) (.finite 1) 1 = .ok policy ∧
      (s.send 0 ⟨1⟩ request).1 = .ok sent ∧
      1000000 ∣ firstWait policy s.shares.next.1 ∧
      (s'.Punctual key 0 answered ∧ s'.NoneOpens key answered ∧ Ends key sent.token ack ∧
        s'.repetitionsAt key answered = [(seconds 2, sent)]) ∧
      (s'.Punctual key 0 unanswered ∧ s'.NoneOpens key unanswered ∧
        (∀ e ∈ unanswered, ¬ Ends key sent.token e.2) ∧
        ∃ before chosen after, unanswered = before ++ (seconds 6, .timers chosen) :: after ∧
          s'.repetitionsAt key before = [(seconds 2, sent)] ∧
          (s'.run before).publishedFor (seconds 6) key (.timers chosen) =
            [⟨⟨1⟩, sent.token, 1000, .timedOut 2⟩]) := by
  intro seconds policy ids request sent key s s' timers ack answered unanswered
  have hpolicy : Transmission.make (seconds 2) (.finite 1) 1 = .ok policy := by decide +kernel
  have hsent : (s.send 0 ⟨1⟩ request).1 = .ok sent := by decide +kernel
  have hmillis : 1000000 ∣ firstWait policy s.shares.next.1 := by decide +kernel
  have hanswered : s'.Punctual key 0 answered ∧ s'.NoneOpens key answered := by decide +kernel
  have hunanswered : s'.Punctual key 0 unanswered ∧ s'.NoneOpens key unanswered := by
    decide +kernel
  have hwait : firstWait policy (s.run []).shares.next.1 = seconds 2 := by decide +kernel
  have htwo : endOfWait 0 (seconds 2) 1 = seconds 2 := by decide +kernel
  have hsix : endOfWait 0 (seconds 2) (1 + 1) = seconds 6 := by decide +kernel
  have hends : Ends key sent.token ack := .inl ⟨_, rfl, .inl ⟨rfl, rfl, by decide⟩⟩
  have hnone : ∀ e ∈ unanswered, ¬ Ends key sent.token e.2 := by
    rintro e hmem
    rcases List.mem_cons.mp hmem with rfl | hmem
    · simp [Ends, timers]
    · rcases List.mem_cons.mp hmem with rfl | hmem
      · simp [Ends, timers]
      · cases List.mem_singleton.mp hmem
        simp [Ends]
  obtain ⟨-, -, hended, hfailed⟩ :=
    repeated_on_schedule hpolicy ids (.constant 0) [] 0 ⟨1⟩ request sent rfl hsent hmillis
  rw [hwait] at hended hfailed
  obtain ⟨j, hj, hlist, hiff⟩ := hended [(seconds 2, timers)] (seconds 2) ack [] hanswered.1
    hanswered.2 (by decide +kernel) hends
  have honce : j = 1 := by
    have hfirst : 1 ≤ j := (hiff 1 (Nat.le_refl _) (Nat.le_refl _)).mpr
      (.inr ⟨by decide +kernel, fun _ => true, List.mem_cons_self, rfl⟩)
    exact Nat.le_antisymm hj hfirst
  subst honce
  replace hlist : s'.repetitionsAt key answered = [(endOfWait 0 (seconds 2) 1, sent)] := hlist
  rw [htwo] at hlist
  obtain ⟨before, chosen, after, hsplit, hrepeated, -, -, hpublished, -⟩ :=
    hfailed unanswered hunanswered.1 hunanswered.2
      (fun before e after heq _ => hnone e (heq ▸ List.mem_append_right _ List.mem_cons_self))
      ⟨(seconds 7, .purge), by simp [unanswered], by decide +kernel⟩
  replace hrepeated : s'.repetitionsAt key before = [(endOfWait 0 (seconds 2) 1, sent)] := hrepeated
  rw [htwo] at hrepeated
  rw [hsix] at hsplit hpublished
  exact ⟨hpolicy, hsent, hmillis, ⟨hanswered.1, hanswered.2, hends, hlist⟩, hunanswered.1,
    hunanswered.2, hnone, before, chosen, after, hsplit, hrepeated, hpublished⟩

/-- With a wait of five minutes, an exchange whose ID is given away while it is open never comes to
its end, although its timer goes off in time and nothing ends it. -/
theorem replaced_exchange_never_fails :
    let seconds := Duration.ofSeconds
    let policy : Transmission := ⟨seconds 300, 1, 0⟩
    let ids : MessageIdPool := { lifetime := policy.exchangeLifetime, firstIds := .constant 1000 }
    let request : Message := { type := .confirmable, code := .request .get, id := 0 }
    let key : MessageKey := ⟨⟨1⟩, 1000⟩
    let s' := (Outgoing.start policy ids (.constant 0)).step 0 (.send ⟨1⟩ request)
    let purges (first : Nat) (n : Nat) : History :=
      (List.range n).map fun i => (seconds (first + 10 * i), .purge)
    let history : History := purges 10 21 ++ [(seconds 210, .send ⟨1⟩ request)] ++ purges 220 10
    Transmission.make (seconds 300) (.finite 1) 0 = .ok policy ∧
      s'.Punctual key 0 history ∧ (∀ e ∈ history, ¬ Ends key request.token e.2) ∧
      endOfWait 0 (seconds 300) 1 = seconds 300 ∧ (∃ e ∈ history, seconds 300 < e.1) ∧
      s'.publications key history = [] := by
  refine ⟨by decide +kernel, by decide +kernel, ?_, by decide +kernel, by decide +kernel,
    by decide +kernel⟩
  rintro ⟨t, event⟩ hmem
  simp only [List.mem_append, List.mem_map, List.mem_singleton] at hmem
  rcases hmem with (⟨i, -, h⟩ | h) | ⟨i, -, h⟩ <;> cases h <;> simp [Ends]

end Outgoing

end Coap
