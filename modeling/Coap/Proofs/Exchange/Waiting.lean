/-
# Acknowledgements that wait

A request waits for its acknowledgement as long as its record says so.  An event makes an end
of that exactly if an acknowledgement goes out for the request (`waits_step`): its record is not
dropped before.  For what is on the schedule is due before the record expires, and a sweep sends
the acknowledgements that are due before it drops anything (`Scheduled`).
-/
import Coap.Proofs.Exchange.Answers
import Mathlib.Data.List.TakeWhile

namespace Coap.Incoming

variable {s s' : Incoming} {t now : Instant} {key k : MessageKey} {event : Event}
  {expires : Instant} {peer : Endpoint} {m : Message}

/-- The acknowledgement of the message with this key waits. -/
def Waits (s : Incoming) (key : MessageKey) : Prop :=
  ∃ expires, s.records.get? key = some ⟨.waiting, expires⟩

/-- Without a record nothing waits. -/
theorem not_waits_of_none (h : s.records.get? key = none) : ¬ s.Waits key := by
  rintro ⟨expires, hr⟩
  rw [h] at hr
  cases hr

/-! ## The schedule -/

/-- What waits is on the schedule, in time before it expires, and the next sweep is not too late
for it. -/
structure Scheduled (s : Incoming) (now : Instant) : Prop where
  ordered : s.schedule.Pairwise fun x y => x.1 ≤ y.1
  soon : ∀ x ∈ s.schedule, x.1 ≤ now + s.emptyAckDelay
  nextSweep : s.nextSweep ≤ now + s.sweepInterval
  long : s.emptyAckDelay + s.sweepInterval ≤ s.exchangeLifetime
  waiting : ∀ key expires, s.records.get? key = some ⟨.waiting, expires⟩ →
    ∃ due, (due, key) ∈ s.schedule ∧ s.nextSweep ≤ due + s.sweepInterval ∧
      due + s.sweepInterval ≤ expires

/-- At the start nothing waits, so all that waits is on the schedule. -/
theorem scheduled_start {c : Config} (h : c.emptyAckDelay + c.sweepInterval ≤ c.exchangeLifetime) :
    (start c).Scheduled 0 where
  ordered := .nil
  soon _ hx := by cases hx
  nextSweep := Nat.le_add_left _ _
  long := h
  waiting _ _ hr := by cases hr

namespace Scheduled

/-- The schedule is kept while time passes. -/
theorem later (h : s.Scheduled t) (ht : t ≤ now) : s.Scheduled now where
  ordered := h.ordered
  soon x hx := Nat.le_trans (h.soon x hx) (Nat.add_le_add_right ht _)
  nextSweep := Nat.le_trans h.nextSweep (Nat.add_le_add_right ht _)
  long := h.long
  waiting := h.waiting

/-- The settings and the schedule are the same, and nothing waits that did not wait before. -/
theorem of_records {records : Table MessageKey IncomingRecord} (h : s.Scheduled now)
    (hwaiting : ∀ key expires, records.get? key = some ⟨.waiting, expires⟩ →
      s.records.get? key = some ⟨.waiting, expires⟩) :
    Scheduled { s with records } now where
  ordered := h.ordered
  soon := h.soon
  nextSweep := h.nextSweep
  long := h.long
  waiting key expires hr := h.waiting key expires (hwaiting key expires hr)

/-- What does not wait may be recorded. -/
theorem record (h : s.Scheduled now) {state : AckState} (hstate : state ≠ .waiting) :
    (s.record key state expires).Scheduled now := by
  refine h.of_records fun k expires' hr => ?_
  rw [Table.get?_insert] at hr
  split at hr
  · cases hr
    exact absurd rfl hstate
  · exact hr

/-- A request that is let through goes on the schedule. -/
theorem accept (h : s.Scheduled now) : Scheduled
    { s.record key .waiting (now + s.exchangeLifetime) with
      schedule := s.schedule ++ [(now + s.emptyAckDelay, key)] } now where
  ordered := by
    refine List.pairwise_append.mpr ⟨h.ordered, List.pairwise_singleton _ _, fun x hx y hy => ?_⟩
    rw [List.mem_singleton.mp hy]
    exact h.soon x hx
  soon x hx := by
    rcases List.mem_append.mp hx with hx | hx
    · exact h.soon x hx
    · rw [List.mem_singleton.mp hx]
      exact Nat.le_refl _
  nextSweep := h.nextSweep
  long := h.long
  waiting k expires hr := by
    replace hr : (s.records.insert key ⟨.waiting, now + s.exchangeLifetime⟩).get? k = _ := hr
    rw [Table.get?_insert] at hr
    split at hr
    · next hkey =>
      cases hr
      have hlong := h.long
      have hsweep := h.nextSweep
      refine ⟨now + s.emptyAckDelay, List.mem_append_right _ (by rw [hkey]; simp), ?_, ?_⟩
      · exact Nat.le_trans hsweep (Nat.add_le_add_right (Nat.le_add_right _ _) _)
      · show now + s.emptyAckDelay + s.sweepInterval ≤ now + s.exchangeLifetime
        rw [Nat.add_assoc]
        exact Nat.add_le_add_left hlong _
    · obtain ⟨due, hmem, hbounds⟩ := h.waiting k expires hr
      exact ⟨due, List.mem_append_left _ hmem, hbounds⟩

/-- So may what is remembered without waiting. -/
theorem remember (h : s.Scheduled now) {state : AckState} (hstate : state ≠ .waiting)
    (lifetime : Duration) : (s.remember t key state lifetime).2.Scheduled now := by
  unfold Incoming.remember
  split
  · exact h
  · exact h.record hstate

/-- A request that waits is put on the schedule. -/
theorem receiveRequest (h : s.Scheduled now) :
    (s.receiveRequest now key m).2.2.Scheduled now := by
  unfold Incoming.receiveRequest
  split
  · exact h.accept
  · split
    · exact h
    · exact h
    · exact h.record (by simp)
    · exact h

/-- Hence the schedule is kept when a message comes in. -/
theorem receive (h : s.Scheduled now) (peer : Endpoint) (m : Message) :
    (s.receive now peer m).2.2.Scheduled now := by
  unfold Incoming.receive
  simp only
  split
  · exact h
  · exact h
  · exact h.remember (by simp) _
  · split
    · exact h
    · exact h
    · exact h.remember (by simp) _
    · exact h.receiveRequest

/-- The schedule is kept when a message goes out. -/
theorem send (h : s.Scheduled now) (peer : Endpoint) (m : Message) :
    (s.send peer m).2.Scheduled now := by
  unfold Incoming.send
  split
  · simp only
    split
    · exact h.record (by simp)
    · exact h
  · exact h

end Scheduled

/-! ## A sweep -/

/-- Acknowledgements on time change records only. -/
theorem fireAcks_frame (due : List MessageKey) (s : Incoming) :
    ∃ records, (fireAcks due s).2 = { s with records } := by
  induction due generalizing s with
  | nil => exact ⟨_, rfl⟩
  | cons key rest ih =>
    rw [fireAcks]
    split
    · next expires _ =>
      obtain ⟨records, hrest⟩ := ih (s.record key .acknowledged expires)
      exact ⟨records, hrest⟩
    · exact ih s

/-- Exactly those go on waiting that are not due. -/
theorem get?_fireAcks_waiting (due : List MessageKey) (s : Incoming) :
    (fireAcks due s).2.records.get? key = some ⟨.waiting, expires⟩ ↔
      s.records.get? key = some ⟨.waiting, expires⟩ ∧ key ∉ due := by
  induction due generalizing s with
  | nil => simp [fireAcks]
  | cons k rest ih =>
    rw [fireAcks]
    split
    · next expires' hk =>
      rw [ih, record, Table.get?_insert, List.mem_cons, not_or]
      by_cases hkey : k = key
      · simp [hkey]
      · simp [hkey, Ne.symm hkey]
    · next hk =>
      rw [ih, List.mem_cons, not_or]
      refine and_congr_right fun hr => ⟨fun hrest => ⟨?_, hrest⟩, And.right⟩
      rintro rfl
      exact hk _ hr

/-- What is due is at the front of an ordered schedule. -/
theorem mem_takeWhile_of_le {l : List (Instant × MessageKey)} {x : Instant × MessageKey}
    (hl : l.Pairwise fun x y => x.1 ≤ y.1) (hx : x ∈ l) (hdue : x.1 ≤ now) :
    x ∈ l.takeWhile fun e => e.1 ≤ now := by
  induction l with
  | nil => cases hx
  | cons y rest ih =>
    obtain ⟨hfirst, hrest⟩ := List.pairwise_cons.mp hl
    have hy : y.1 ≤ now := by
      rcases List.mem_cons.mp hx with rfl | hx
      · exact hdue
      · exact Nat.le_trans (hfirst x hx) hdue
    rw [List.takeWhile_cons_of_pos (by simpa using hy)]
    rcases List.mem_cons.mp hx with rfl | hx
    · exact List.mem_cons_self
    · exact List.mem_cons_of_mem _ (ih hrest hx)

/-- The keys whose acknowledgements are due. -/
def due (s : Incoming) (now : Instant) : List MessageKey :=
  (s.schedule.takeWhile fun e => e.1 ≤ now).map (·.2)

/-- What a sweep leaves behind: some records, and what is not due yet. -/
theorem sweep_frame (s : Incoming) (now : Instant) : ∃ rest records nextPurge,
    s.schedule = (s.schedule.takeWhile fun e => e.1 ≤ now) ++ rest ∧
    (s.sweep now).1 = (fireAcks (s.due now) { s with schedule := rest }).1 ∧
    (s.sweep now).2 = { s with
      records, schedule := rest, nextSweep := now + s.sweepInterval, nextPurge } ∧
    records = ((fireAcks (s.due now) { s with schedule := rest }).2.purge now).records := by
  obtain ⟨rest, hrest⟩ := List.takeWhile_prefix (fun e => decide (e.1 ≤ now)) (l := s.schedule)
  have hdrop : s.schedule.drop (s.schedule.takeWhile fun e => e.1 ≤ now).length = rest := by
    generalize (s.schedule.takeWhile fun e => decide (e.1 ≤ now)) = front at hrest ⊢
    rw [← hrest]
    exact List.drop_left
  obtain ⟨fired, hfired⟩ := fireAcks_frame (s.due now) { s with schedule := rest }
  refine ⟨rest, _, ((fireAcks (s.due now) { s with schedule := rest }).2.purge now).nextPurge,
    hrest.symm, ?_, ?_, rfl⟩
  · unfold sweep due
    simp only [hdrop]
  · unfold sweep
    simp only [hdrop]
    rw [show (s.schedule.takeWhile fun e => e.1 ≤ now).map (·.2) = s.due now from rfl, hfired]
    unfold purge
    simp only
    split <;> rfl

/-- What waits and is not due has not expired. -/
theorem Scheduled.of_mem_due (h : s.Scheduled now)
    (hr : s.records.get? key = some ⟨.waiting, expires⟩) (hnot : key ∉ s.due now) :
    now < expires := by
  obtain ⟨due, hmem, -, hlong⟩ := h.waiting key expires hr
  by_contra hexpired
  -- what has expired was due before
  have hdue : due ≤ now :=
    Nat.le_trans (Nat.le_add_right _ _) (Nat.le_trans hlong (Nat.le_of_not_lt hexpired))
  exact hnot (List.mem_map.mpr ⟨_, mem_takeWhile_of_le h.ordered hmem hdue, rfl⟩)

/-- **A sweep drops no record that waits.**  It sends the acknowledgements that are due, and all
others go on waiting. -/
theorem get?_sweep_waiting (h : s.Scheduled now) :
    (s.sweep now).2.records.get? key = some ⟨.waiting, expires⟩ ↔
      s.records.get? key = some ⟨.waiting, expires⟩ ∧ key ∉ s.due now := by
  obtain ⟨rest, records, nextPurge, -, -, hsweep, hrecords⟩ := sweep_frame s now
  have hfired : (fireAcks (s.due now) { s with schedule := rest }).2.records.get? key =
      some ⟨.waiting, expires⟩ ↔ s.records.get? key = some ⟨.waiting, expires⟩ ∧
        key ∉ s.due now :=
    get?_fireAcks_waiting _ _
  rw [hsweep, ← hfired]
  show records.get? key = _ ↔ _
  rw [hrecords]
  refine ⟨get?_of_get?_purge, fun hr => ?_⟩
  rcases get?_purge (t := now) hr with hkept | ⟨-, hexpired⟩
  · exact hkept
  · obtain ⟨hr, hnot⟩ := hfired.mp hr
    exact absurd (h.of_mem_due hr hnot) (Nat.not_lt_of_le hexpired)

/-- The schedule is kept in a sweep. -/
theorem Scheduled.sweep (h : s.Scheduled now) : (s.sweep now).2.Scheduled now := by
  have hkept (key : MessageKey) (expires : Instant) :
      (s.sweep now).2.records.get? key = some ⟨.waiting, expires⟩ ↔
        s.records.get? key = some ⟨.waiting, expires⟩ ∧ key ∉ s.due now :=
    get?_sweep_waiting h
  obtain ⟨rest, records, nextPurge, hparts, -, hsweep, -⟩ := sweep_frame s now
  have hordered := h.ordered
  rw [hparts] at hordered
  have hrest {x : Instant × MessageKey} (hx : x ∈ rest) : x ∈ s.schedule := by
    rw [hparts]
    exact List.mem_append_right _ hx
  rw [hsweep] at hkept ⊢
  refine ⟨(List.pairwise_append.mp hordered).2.1, fun x hx => h.soon x (hrest hx), Nat.le_refl _,
    h.long, fun key expires hr => ?_⟩
  obtain ⟨hr, hnot⟩ := (hkept key expires).mp hr
  obtain ⟨due, hmem, -, hlong⟩ := h.waiting key expires hr
  -- what still waits is not due, so that it is left on the schedule
  have hnotyet : ¬ due ≤ now := fun hdue =>
    hnot (List.mem_map.mpr ⟨_, mem_takeWhile_of_le h.ordered hmem hdue, rfl⟩)
  rw [hparts] at hmem
  rcases List.mem_append.mp hmem with hfront | hmem
  · have hdue := List.mem_takeWhile_imp hfront
    exact absurd (by simpa using hdue) hnotyet
  · exact ⟨due, hmem, Nat.add_le_add_right (Nat.le_of_lt (Nat.lt_of_not_le hnotyet)) _, hlong⟩

/-! ## What an event does to what waits -/

/-- The schedule is kept at every event. -/
theorem Scheduled.step (h : s.Scheduled now) (event : Event) :
    (s.step now event).Scheduled now := by
  cases event with
  | receive peer m => exact h.receive peer m
  | send peer m => exact h.send peer m
  | sweep => exact h.sweep

/-- As long as no sweep is due, what waits has not expired. -/
theorem Scheduled.remembers (h : s.Scheduled now) (hwaits : s.Waits key)
    (hsweep : now < s.nextSweep) : s.Remembers now key := by
  obtain ⟨expires, hr⟩ := hwaits
  obtain ⟨due, -, hdue, hlong⟩ := h.waiting key expires hr
  exact ⟨_, hr, Nat.lt_of_lt_of_le hsweep (Nat.le_trans hdue hlong)⟩

/-- A record goes on to wait as long as there is no acknowledgement. -/
theorem waits_iff_of_answers {r : IncomingRecord} {handed : Message → Prop} {l : List Message}
    {σ : AckState} (hr : s.records.get? key = some r) (hanswers : Answers key handed r.state l σ)
    (hr' : s'.records.get? key = some ⟨σ, r.expires⟩) : s'.Waits key ↔ s.Waits key ∧ l = [] := by
  obtain ⟨state, expires⟩ := r
  simp only [Waits, hr, hr', Option.some.injEq, IncomingRecord.mk.injEq, exists_and_left,
    exists_eq', and_true]
  constructor
  · rintro rfl
    obtain rfl := hanswers.eq_waiting rfl
    rcases hanswers.of_waiting with ⟨-, hnone⟩ | ⟨hσ, -⟩ | ⟨r, hσ, -⟩
    · exact ⟨rfl, hnone⟩
    · cases hσ
    · cases hσ
  · rintro ⟨rfl, rfl⟩
    rcases hanswers.of_waiting with ⟨hσ, -⟩ | ⟨-, hne, -⟩ | ⟨r, -, hne, -⟩
    · exact hσ
    · exact absurd rfl hne
    · exact absurd rfl hne

/-- A request waits on when a message comes in that does not acknowledge it. -/
theorem waits_receive (hs : s.Sound) (hnot : ¬ s.Opens t key (.receive peer m)) :
    (s.receive t peer m).2.2.Waits key ↔ s.Waits key ∧
      (if Event.answersRequest (.receive peer m) then acksIn key (s.output t (.receive peer m))
        else []) = [] := by
  by_cases hkey : ⟨peer, m.id⟩ = key
  · subst hkey
    cases hr : s.records.get? ⟨peer, m.id⟩ with
    | none =>
      exact iff_of_false (not_waits_of_none (get?_receive_eq_none hr hnot))
        fun hwaits => not_waits_of_none hr hwaits.1
    | some r =>
      obtain ⟨σ, hanswers, hr'⟩ : ∃ σ, Answers _ (fun _ => False) r.state _ σ ∧ _ :=
        answers_receive hs hr hnot
      exact waits_iff_of_answers hr hanswers hr'
  · rw [acksIn_receive_of_ne hs hkey, ite_self, Waits, get?_receive_of_ne hkey]
    exact (and_iff_left rfl).symm

/-- A request waits on when a message goes out that does not acknowledge it. -/
theorem waits_send : (s.send peer m).2.Waits key ↔ s.Waits key ∧
    (if Event.answersRequest (.send peer m) then acksIn key (s.output t (.send peer m))
      else []) = [] := by
  cases hr : s.records.get? key with
  | none =>
    exact iff_of_false (not_waits_of_none (get?_send_eq_none hr))
      fun hwaits => not_waits_of_none hr hwaits.1
  | some r =>
    obtain ⟨σ, hanswers, hr'⟩ := answers_send (t := t) hr
    exact waits_iff_of_answers hr hanswers hr'

/-- A request waits on in a sweep that does not acknowledge it. -/
theorem waits_sweep (h : s.Scheduled now) :
    (s.sweep now).2.Waits key ↔ s.Waits key ∧ acksIn key (s.sweep now).1 = [] := by
  obtain ⟨rest, -, -, -, hsent, -⟩ := sweep_frame s now
  -- nothing that waits is dropped
  have hfired : (s.sweep now).2.Waits key ↔
      (fireAcks (s.due now) { s with schedule := rest }).2.Waits key :=
    exists_congr fun expires =>
      (get?_sweep_waiting h).trans (get?_fireAcks_waiting _ { s with schedule := rest }).symm
  rw [hfired, hsent]
  cases hr : s.records.get? key with
  | none =>
    have hnone : ({ s with schedule := rest } : Incoming).records.get? key = none := hr
    exact iff_of_false (not_waits_of_none (get?_fireAcks_eq_none hnone))
      fun hwaits => not_waits_of_none hr hwaits.1
  | some r =>
    have hrest : ({ s with schedule := rest } : Incoming).records.get? key = some r := hr
    obtain ⟨σ, hanswers, hr'⟩ : ∃ σ, Answers _ (fun _ => False) r.state _ σ ∧ _ :=
      answers_fireAcks hrest
    exact waits_iff_of_answers hr hanswers hr'

/-- **The acknowledgement of a request waits until one goes out**, unless its ID is taken by a
new message. -/
theorem waits_step (hs : s.Sound) (h : s.Scheduled now) (hnot : ¬ s.Opens now key event) :
    (s.step now event).Waits key ↔ s.Waits key ∧
      (if event.answersRequest then acksIn key (s.output now event) else []) = [] := by
  cases event with
  | receive peer m => exact waits_receive hs hnot
  | send peer m => exact waits_send
  | sweep => exact waits_sweep h

/-- What is new waits if it is a request that asks to be confirmed. -/
theorem waits_of_opens (h : s.Opens now key (.receive peer m)) :
    (s.receive now peer m).2.2.Waits key ↔ Asks m := by
  obtain ⟨⟨state, expires⟩, hr, hwaiting, -⟩ := get?_receive_of_opens h
  rw [← hwaiting]
  simp [Waits, hr]

end Coap.Incoming
