/-
# Empty acknowledgements on time

A request that waits for its acknowledgement is on the schedule with its deadline, and a sweep
sends what is due.  An entry stays on the schedule when its request has been acknowledged otherwise;
it is harmless, because the record it was made for outlives it (`Punctual`).  So as long as no
sweep is late, the first one at or after the deadline sends the acknowledgement of a request that
nothing has acknowledged before, and no other sweep sends one (`swept_on_time`).
-/
import Coap.Proofs.Exchange.Acknowledgements
import Coap.Proofs.Exchange.Waiting
import Coap.Proofs.LastEvent

namespace Coap.Incoming

variable {s s' : Incoming} {now t u : Instant} {key : MessageKey} {peer : Endpoint} {m : Message}
  {event : Event} {history history' mid : History} {expires deadline : Instant}
  {due : List MessageKey}

/-! ## What a message does to the schedule -/

/-- Records may change, and at most a message with this key is put on the schedule, which is
recorded as one that waits. -/
def Queues (s : Incoming) (t : Instant) (key : MessageKey) (s' : Incoming) : Prop :=
  ∃ records schedule, s' = { s with records, schedule } ∧
    (schedule = s.schedule ∨ schedule = s.schedule ++ [(t + s.emptyAckDelay, key)] ∧
      records.get? key = some ⟨.waiting, t + s.exchangeLifetime⟩)

/-- To change records puts nothing on the schedule. -/
theorem queues_records (s : Incoming) (t : Instant) (key : MessageKey)
    (records : Table MessageKey IncomingRecord) : s.Queues t key { s with records } :=
  ⟨records, s.schedule, rfl, .inl rfl⟩

/-- To remember a message puts nothing on the schedule. -/
theorem queues_remember (state : AckState) (lifetime : Duration) :
    s.Queues t key (s.remember t key state lifetime).2 := by
  unfold remember
  split
  · exact queues_records s t key s.records
  · exact queues_records s t key _

/-- A confirmable request that is new is put on the schedule, as it has to be acknowledged. -/
theorem queues_receiveRequest : s.Queues t key (s.receiveRequest t key m).2.2 := by
  unfold receiveRequest
  split
  · exact ⟨_, _, rfl, .inr ⟨rfl, Table.get?_insert_self ..⟩⟩
  · split
    · exact queues_records s t key s.records
    · exact queues_records s t key s.records
    · exact queues_records s t key _
    · exact queues_records s t key s.records

/-- So each message is entered at most once in either queue. -/
theorem queues_receive (s : Incoming) (t : Instant) (peer : Endpoint) (m : Message) :
    s.Queues t ⟨peer, m.id⟩ (s.receive t peer m).2.2 := by
  unfold receive
  dsimp only
  split
  · exact queues_records s t _ s.records
  · exact queues_records s t _ s.records
  · exact queues_remember _ _
  · split
    · exact queues_records s t _ s.records
    · exact queues_records s t _ s.records
    · exact queues_remember _ _
    · exact queues_receiveRequest

/-- A message that goes out changes records only. -/
theorem send_frame (s : Incoming) (peer : Endpoint) (m : Message) :
    ∃ records, (s.send peer m).2 = { s with records } := by
  unfold send
  split
  · dsimp only
    split <;> exact ⟨_, rfl⟩
  · exact ⟨_, rfl⟩

/-- What is left on the schedule by a sweep is not due yet. -/
theorem lt_of_mem_schedule_sweep (hordered : s.schedule.Pairwise fun x y => x.1 ≤ y.1)
    {x : Instant × MessageKey} (hx : x ∈ (s.sweep t).2.schedule) : x ∈ s.schedule ∧ t < x.1 := by
  obtain ⟨rest, _, _, hparts, -, hsweep, -⟩ := sweep_frame s t
  rw [hsweep] at hx
  have hrest : rest = s.schedule.dropWhile fun e => e.1 ≤ t := by
    refine List.append_cancel_left (hparts.symm.trans ?_)
    exact List.takeWhile_append_dropWhile.symm
  cases hcons : rest with
  | nil =>
    rw [hcons] at hx
    cases hx
  | cons y later =>
    rw [hcons] at hrest hparts hx
    have hlate : ¬ y.1 ≤ t := by
      have hhead := List.head?_dropWhile_not (fun e : Instant × MessageKey => e.1 ≤ t) s.schedule
      rw [← hrest] at hhead
      simpa using hhead
    refine ⟨?_, ?_⟩
    · rw [hparts]
      exact List.mem_append_right _ hx
    · rw [hparts] at hordered
      have hafter := (List.pairwise_append.mp hordered).2.1
      rcases List.mem_cons.mp hx with rfl | hx
      · exact Nat.lt_of_not_le hlate
      · exact Nat.lt_of_lt_of_le (Nat.lt_of_not_le hlate) (List.rel_of_pairwise_cons hafter hx)

/-- The settings that say when acknowledgements are due. -/
def SameTimes (s s' : Incoming) : Prop :=
  s'.emptyAckDelay = s.emptyAckDelay ∧ s'.sweepInterval = s.sweepInterval

/-- Delays and lifetimes are the same after every event. -/
theorem sameTimes_step (s : Incoming) (t : Instant) (event : Event) :
    SameTimes s (s.step t event) := by
  cases event with
  | receive peer m =>
    obtain ⟨_, _, hframe, -⟩ := queues_receive s t peer m
    rw [step, hframe]
    exact ⟨rfl, rfl⟩
  | send peer m =>
    obtain ⟨_, hframe⟩ := send_frame s peer m
    rw [step, hframe]
    exact ⟨rfl, rfl⟩
  | sweep =>
    obtain ⟨_, _, _, -, -, hframe, -⟩ := sweep_frame s t
    rw [step, hframe]
    exact ⟨rfl, rfl⟩

/-- Delays and lifetimes are the same throughout. -/
theorem sameTimes_run (s : Incoming) (history : History) : SameTimes s (s.run history) := by
  induction history generalizing s with
  | nil => exact ⟨rfl, rfl⟩
  | cons e rest ih =>
    obtain ⟨hdelay, hinterval⟩ := sameTimes_step s e.1 e.2
    obtain ⟨hdelay', hinterval'⟩ := ih (s.step e.1 e.2)
    exact ⟨hdelay'.trans hdelay, hinterval'.trans hinterval⟩

/-! ## Entries and records -/

/-- The clock does not go back, and no sweep is late. -/
def OnTime (s : Incoming) (now : Instant) : History → Prop
  | [] => True
  | (t, event) :: rest => now ≤ t ∧ t ≤ s.nextSweep ∧ (s.step t event).OnTime t rest

/-- An entry of the schedule is that of the record of its key, and is swept in time. -/
structure InTime (s : Incoming) (x : Instant × MessageKey) : Prop where
  recorded : ∃ r, s.records.get? x.2 = some r ∧
    r.expires + s.emptyAckDelay = x.1 + s.exchangeLifetime
  next : s.nextSweep < x.1 + s.sweepInterval

/-- All entries of the schedule are in time. -/
def Punctual (s : Incoming) : Prop := ∀ x ∈ s.schedule, s.InTime x

/-- What holds at every time of a run in which no sweep is late.  If acknowledgements are not put
off, a deadline is over as soon as it is set, and nothing has to be known about the entries. -/
structure Timely (s : Incoming) (now : Instant) : Prop where
  sound : s.Sound
  scheduled : s.Scheduled now
  punctual : 0 < s.emptyAckDelay → s.Punctual

/-- At the start nothing is on the schedule. -/
theorem timely_start {c : Config} (hlong : c.emptyAckDelay + c.sweepInterval ≤ c.exchangeLifetime) :
    (start c).Timely 0 where
  sound := sound_start c
  scheduled := scheduled_start hlong
  punctual _ x hx := by cases hx

/-- An entry that is swept in time is swept before its record expires. -/
theorem lt_expires_of_entry {t next due delay interval lifetime expires : Nat} (ht : t ≤ next)
    (hnext : next < due + interval) (hexpires : expires + delay = due + lifetime)
    (hlong : delay + interval ≤ lifetime) : t < expires := by
  omega

namespace Timely

/-- An entry that is left on the schedule stays in time: its record has not expired. -/
theorem inTime_step (h : s.Timely now) (ht : t ≤ s.nextSweep) (hdelay : 0 < s.emptyAckDelay)
    {x : Instant × MessageKey} (hx : x ∈ s.schedule)
    (hnext : (s.step t event).nextSweep < x.1 + s.sweepInterval) : (s.step t event).InTime x := by
  obtain ⟨hdelay', hinterval'⟩ := sameTimes_step s t event
  obtain ⟨⟨r, hr, hexpires⟩, hswept⟩ := h.punctual hdelay x hx
  have hlive : t < r.expires := lt_expires_of_entry ht hswept hexpires h.scheduled.long
  obtain ⟨σ, -, hr' | ⟨-, hover⟩⟩ := answers_step h.sound hr (not_opens_of_lt hr hlive)
  · refine ⟨⟨_, hr', ?_⟩, by rwa [hinterval']⟩
    rwa [hdelay', (sameLifetimes_step s t event).1]
  · exact absurd hover (Nat.not_le_of_lt hlive)

/-- An event in time comes before anything is late. -/
theorem punctual_step (h : s.Timely now) (hnow : now ≤ t) (ht : t ≤ s.nextSweep)
    (hdelay : 0 < s.emptyAckDelay) (event : Event) : (s.step t event).Punctual := by
  intro x hx
  cases event with
  | receive peer m =>
    obtain ⟨records, schedule, hframe, hschedule⟩ := queues_receive s t peer m
    rw [step, hframe] at hx
    have hold (hx : x ∈ s.schedule) : (s.step t (.receive peer m)).InTime x := by
      refine h.inTime_step ht hdelay hx ?_
      rw [step, hframe]
      exact (h.punctual hdelay x hx).next
    rcases hschedule with rfl | ⟨rfl, hr⟩
    · exact hold hx
    · rcases List.mem_append.mp hx with hx | hx
      · exact hold hx
      · -- the deadline that is set now is more than an interval before the sweep after the next
        have hsweep : s.nextSweep < t + s.emptyAckDelay + s.sweepInterval :=
          Nat.lt_of_le_of_lt ((h.scheduled.later hnow).nextSweep)
            (Nat.add_lt_add_right (Nat.lt_add_of_pos_right hdelay) _)
        rw [List.mem_singleton.mp hx, step, hframe]
        exact ⟨⟨_, hr, Nat.add_right_comm ..⟩, hsweep⟩
  | send peer m =>
    obtain ⟨records, hframe⟩ := send_frame s peer m
    rw [step, hframe] at hx
    refine h.inTime_step ht hdelay hx ?_
    rw [step, hframe]
    exact (h.punctual hdelay x hx).next
  | sweep =>
    obtain ⟨hold, hlate⟩ := lt_of_mem_schedule_sweep h.scheduled.ordered hx
    refine h.inTime_step ht hdelay hold ?_
    obtain ⟨_, _, _, -, -, hframe, -⟩ := sweep_frame s t
    rw [step, hframe]
    exact Nat.add_lt_add_right hlate _

/-- So the schedule is kept in every event. -/
theorem step (h : s.Timely now) (hnow : now ≤ t) (ht : t ≤ s.nextSweep) (event : Event) :
    (s.step t event).Timely t where
  sound := sound_step h.sound
  scheduled := (h.scheduled.later hnow).step event
  punctual hdelay := by
    rw [(sameTimes_step s t event).1] at hdelay
    exact h.punctual_step hnow ht hdelay event

/-- The schedule is kept throughout, as long as events are in time. -/
theorem run (h : s.Timely now) (hontime : s.OnTime now (history ++ history')) :
    ∃ later, now ≤ later ∧ (s.run history).Timely later ∧ (s.run history).OnTime later history' := by
  induction history generalizing s now with
  | nil => exact ⟨now, Nat.le_refl _, h, hontime⟩
  | cons e rest ih =>
    obtain ⟨hnow, ht, hrest⟩ := hontime
    obtain ⟨later, hlater, hend⟩ := ih (h.step hnow ht e.2) hrest
    exact ⟨later, Nat.le_trans hnow hlater, hend⟩

end Timely

/-! ## What a sweep sends -/

/-- What does not wait is not acknowledged by the timer. -/
theorem acksIn_fireAcks_of_not_waits (hnot : ¬ s.Waits key) :
    acksIn key (fireAcks due s).1 = [] := by
  induction due generalizing s with
  | nil => rfl
  | cons k rest ih =>
    rw [fireAcks]
    split
    · next expires hk =>
      have hkey : k ≠ key := fun hkey => hnot ⟨expires, hkey ▸ hk⟩
      have hrest : ¬ (s.record k .acknowledged expires).Waits key := by
        rintro ⟨expires', hr⟩
        rw [record, Table.get?_insert, if_neg hkey] at hr
        exact hnot ⟨expires', hr⟩
      dsimp only
      rw [acksIn_cons, acksIn_of_key hkey, List.nil_append, ih hrest]
    · exact ih hnot

/-- A request that waits is acknowledged once, if it is among those that are due. -/
theorem acksIn_fireAcks_of_waits (hwaits : s.Waits key) : acksIn key (fireAcks due s).1 =
    if key ∈ due then [.emptyAck key.id] else [] := by
  induction due generalizing s with
  | nil => rfl
  | cons k rest ih =>
    rw [fireAcks]
    by_cases hkey : k = key
    · subst hkey
      obtain ⟨expires, hr⟩ := hwaits
      have hdone : ¬ (s.record k .acknowledged expires).Waits k := by
        rintro ⟨expires', hr'⟩
        rw [record, Table.get?_insert_self] at hr'
        cases hr'
      rw [hr, if_pos List.mem_cons_self]
      dsimp only
      rw [acksIn_cons, acksIn_singleton rfl rfl rfl, acksIn_fireAcks_of_not_waits hdone]
      rfl
    · have hmem : key ∈ k :: rest ↔ key ∈ rest := by simp [Ne.symm hkey]
      simp only [hmem]
      split
      · next expires hk =>
        have hrest : (s.record k .acknowledged expires).Waits key := by
          obtain ⟨expires', hr⟩ := hwaits
          exact ⟨expires', by rw [record, Table.get?_insert, if_neg hkey, hr]⟩
        dsimp only
        rw [acksIn_cons, acksIn_of_key hkey, List.nil_append, ih hrest]
      · exact ih hwaits

/-- What does not wait is not acknowledged in a sweep. -/
theorem acksIn_sweep_of_not_waits (hnot : ¬ s.Waits key) : acksIn key (s.sweep t).1 = [] := by
  obtain ⟨rest, _, _, -, hsent, -⟩ := sweep_frame s t
  rw [hsent]
  exact acksIn_fireAcks_of_not_waits hnot

/-- What waits is acknowledged in a sweep if it is due. -/
theorem acksIn_sweep_of_waits (hwaits : s.Waits key) : acksIn key (s.sweep t).1 =
    if key ∈ s.due t then [.emptyAck key.id] else [] := by
  obtain ⟨rest, _, _, -, hsent, -⟩ := sweep_frame s t
  rw [hsent]
  exact acksIn_fireAcks_of_waits hwaits

/-! ## The deadline of a request -/

/-- A request waits for its acknowledgement, which is due at the deadline. -/
structure WaitsUntil (s : Incoming) (now : Instant) (key : MessageKey) (deadline : Instant) :
    Prop where
  waits : ∃ expires, s.records.get? key = some ⟨.waiting, expires⟩ ∧
    expires + s.emptyAckDelay = deadline + s.exchangeLifetime
  past : s.emptyAckDelay = 0 → deadline ≤ now

/-- What settles how a request with this key is acknowledged: a copy of it, a response that may
travel on the acknowledgement, or a sweep when the deadline is over. -/
def Settles (key : MessageKey) (deadline : Instant) : Instant × Event → Prop
  | (_, .receive peer m) => ⟨peer, m.id⟩ = key ∧ Asks m
  | (_, .send peer m) => ⟨peer, m.id⟩ = key ∧ m.type = .acknowledgement ∧ ¬ m.isEmpty
  | (t, .sweep) => deadline ≤ t

namespace WaitsUntil

/-- What waits is among what is due as soon as its deadline is over. -/
theorem mem_due_iff (hw : s.WaitsUntil now key deadline) (h : s.Timely now) (hnow : now ≤ t) :
    key ∈ s.due t ↔ deadline ≤ t := by
  obtain ⟨⟨expires, hr, hexpires⟩, hover⟩ := hw
  rcases Nat.eq_zero_or_pos s.emptyAckDelay with hzero | hdelay
  · -- every deadline is over when it is set
    refine iff_of_true ?_ (Nat.le_trans (hover hzero) hnow)
    obtain ⟨d, hmem, -⟩ := h.scheduled.waiting key expires hr
    have hsoon := h.scheduled.soon _ hmem
    rw [hzero] at hsoon
    exact List.mem_map.mpr ⟨_, mem_takeWhile_of_le h.scheduled.ordered hmem
      (Nat.le_trans hsoon hnow), rfl⟩
  · have hentry {d : Instant} (hmem : (d, key) ∈ s.schedule) : d = deadline := by
      obtain ⟨⟨r, hr', hexpires'⟩, -⟩ := h.punctual hdelay _ hmem
      cases hr.symm.trans hr'
      exact Nat.add_right_cancel (hexpires'.symm.trans hexpires)
    constructor
    · intro hdue
      obtain ⟨⟨d, _⟩, hmem, rfl⟩ := List.mem_map.mp hdue
      rw [← hentry ((List.takeWhile_sublist _).subset hmem)]
      simpa using List.mem_takeWhile_imp hmem
    · intro hdue
      obtain ⟨d, hmem, -⟩ := h.scheduled.waiting key expires hr
      rw [← hentry hmem] at hdue
      exact List.mem_map.mpr ⟨_, mem_takeWhile_of_le h.scheduled.ordered hmem hdue, rfl⟩

/-- A copy of the request is acknowledged at once; no other message makes an end of the waiting. -/
theorem waits_receive_iff (hw : s.WaitsUntil now key deadline)
    (hnot : ¬ s.Opens t key (.receive peer m)) :
    (s.receive t peer m).2.2.Waits key ↔ ¬ Settles key deadline (t, .receive peer m) := by
  obtain ⟨⟨expires, hr, -⟩, -⟩ := hw
  by_cases hkey : ⟨peer, m.id⟩ = key
  · subst hkey
    have hold (hm : Watched m) : s.Remembers t ⟨peer, m.id⟩ :=
      not_not.mp fun hnew => hnot (opens_receive_iff.mpr ⟨rfl, hm, hnew⟩)
    by_cases hasks : Asks m
    · refine iff_of_false ?_ fun hsettles => hsettles ⟨rfl, hasks⟩
      obtain ⟨r, hlive⟩ := remembers_iff.mp (hold hasks.watched)
      obtain rfl : r = ⟨.waiting, expires⟩ :=
        Option.some.inj ((live?_eq_some_iff.mp hlive).1.symm.trans hr)
      rw [receive_of_asks hasks, receiveRequest, hlive]
      rintro ⟨expires', hr'⟩
      dsimp only at hr'
      rw [record, Table.get?_insert_self] at hr'
      cases hr'
    · refine iff_of_true ?_ fun hsettles => hasks hsettles.2
      have hcases := receive_cases s t peer m
      generalize (s.receive t peer m).2.1 = sent at hcases
      generalize (s.receive t peer m).2.2 = s' at hcases
      cases hcases with
      | passed | refused | known => exact ⟨expires, hr⟩
      | opened hm hnew => exact absurd (hold hm) hnew
      | resent hm | acknowledged hm | unasked hm => exact absurd hm hasks
  · rw [Waits, get?_receive_of_ne hkey]
    exact iff_of_true ⟨expires, hr⟩ fun hsettles => hkey hsettles.1

/-- A response that may travel on the acknowledgement is stored; nothing else that is sent makes an
end of the waiting. -/
theorem waits_send_iff (hw : s.WaitsUntil now key deadline) :
    (s.send peer m).2.Waits key ↔ ¬ Settles key deadline (t, .send peer m) := by
  obtain ⟨⟨expires, hr, -⟩, -⟩ := hw
  obtain ⟨hsame, hout⟩ | ⟨expires', -, htype, hfull, -, hwrites⟩ := send_cases s peer m
  · rw [hsame]
    refine iff_of_true ⟨expires, hr⟩ ?_
    rintro ⟨rfl, htype, hfull⟩
    have hsent : (s.send peer m).1 = m := by
      rw [send_eq htype hfull, hr]
      exact if_pos rfl
    rcases hout with ⟨-, hempty⟩ | hconfirmable
    · exact hfull (hempty htype)
    · rw [hsent, htype] at hconfirmable
      cases hconfirmable
  · by_cases hkey : ⟨peer, m.id⟩ = key
    · subst hkey
      refine iff_of_false ?_ fun hsettles => hsettles ⟨rfl, htype, hfull⟩
      rintro ⟨_, hr'⟩
      rw [hwrites.get?_self] at hr'
      cases hr'
    · rw [Waits, hwrites.get?_of_ne hkey]
      exact iff_of_true ⟨expires, hr⟩ fun hsettles => hkey hsettles.1

/-- A request waits on unless something settles it. -/
theorem waits_step_iff (hw : s.WaitsUntil now key deadline) (h : s.Timely now) (hnow : now ≤ t)
    (hnot : ¬ s.Opens t key event) :
    (s.step t event).Waits key ↔ ¬ Settles key deadline (t, event) := by
  cases event with
  | receive peer m => exact hw.waits_receive_iff hnot
  | send peer m => exact hw.waits_send_iff
  | sweep =>
    show (∃ expires, _) ↔ ¬ deadline ≤ t
    simp only [step, get?_sweep_waiting (h.scheduled.later hnow), hw.mem_due_iff h hnow]
    obtain ⟨⟨expires, hr, -⟩, -⟩ := hw
    simp [hr]

/-- A request that waits on does so until the same time. -/
theorem step (hw : s.WaitsUntil now key deadline) (h : s.Timely now) (hnow : now ≤ t)
    (hnot : ¬ s.Opens t key event) (hopen : ¬ Settles key deadline (t, event)) :
    (s.step t event).WaitsUntil t key deadline where
  waits := by
    obtain ⟨expires', hr'⟩ := (hw.waits_step_iff h hnow hnot).mpr hopen
    obtain ⟨⟨expires, hr, hexpires⟩, -⟩ := hw
    refine ⟨expires', hr', ?_⟩
    rw [(sameTimes_step s t event).1, (sameLifetimes_step s t event).1, ← hexpires]
    obtain ⟨σ, -, hkept | ⟨hgone, -⟩⟩ := answers_step h.sound hr hnot
    · cases hr'.symm.trans hkept
      rfl
    · rw [hgone] at hr'
      cases hr'
  past := by
    rw [(sameTimes_step s t event).1]
    exact fun hzero => Nat.le_trans (hw.past hzero) hnow

/-- A request waits as long as nothing has settled it. -/
theorem run (hw : s.WaitsUntil now key deadline) (h : s.Timely now)
    (hontime : s.OnTime now (mid ++ history)) (hnone : s.NoneOpens key mid)
    (hopen : ∀ e ∈ mid, ¬ Settles key deadline e) :
    ∃ later, (s.run mid).Timely later ∧ (s.run mid).OnTime later history ∧
      (s.run mid).WaitsUntil later key deadline := by
  induction mid generalizing s now with
  | nil => exact ⟨now, h, hontime, hw⟩
  | cons e rest ih =>
    obtain ⟨hnow, ht, hrest⟩ := hontime
    obtain ⟨hfirst, hlater⟩ := List.forall_mem_cons.mp hopen
    exact ih (hw.step h hnow hnone.1 hfirst) (h.step hnow ht e.2) hrest hnone.2 hlater

end WaitsUntil

/-- What does not wait does not wait later, unless its ID is taken by a new message. -/
theorem Timely.not_waits_run (h : s.Timely now) (hontime : s.OnTime now (mid ++ history))
    (hnone : s.NoneOpens key mid) (hnot : ¬ s.Waits key) : ¬ (s.run mid).Waits key := by
  induction mid generalizing s now with
  | nil => exact hnot
  | cons e rest ih =>
    obtain ⟨hnow, ht, hrest⟩ := hontime
    refine ih (h.step hnow ht e.2) hrest hnone.2 fun hwaits => hnot ?_
    exact ((waits_step h.sound (h.scheduled.later hnow) hnone.1).mp hwaits).1

/-- What is settled does not wait. -/
theorem WaitsUntil.not_waits_run (hw : s.WaitsUntil now key deadline) (h : s.Timely now)
    (hontime : s.OnTime now (mid ++ history)) (hnone : s.NoneOpens key mid)
    (hsettled : ∃ e ∈ mid, Settles key deadline e) : ¬ (s.run mid).Waits key := by
  induction mid generalizing s now with
  | nil =>
    obtain ⟨e, he, -⟩ := hsettled
    cases he
  | cons e rest ih =>
    obtain ⟨hnow, ht, hrest⟩ := hontime
    by_cases hfirst : Settles key deadline e
    · refine (h.step hnow ht e.2).not_waits_run hrest hnone.2 fun hwaits => ?_
      exact (hw.waits_step_iff h hnow hnone.1).mp hwaits hfirst
    · obtain ⟨later, hmem, hlater⟩ := hsettled
      rcases List.mem_cons.mp hmem with rfl | hmem
      · exact absurd hlater hfirst
      · exact ih (hw.step h hnow hnone.1 hfirst) (h.step hnow ht e.2) hrest hnone.2
          ⟨later, hmem, hlater⟩

/-- What a sweep sends for a request that nothing has settled: its acknowledgement, if the
deadline is over. -/
theorem WaitsUntil.acksIn_sweep (hw : s.WaitsUntil now key deadline) (h : s.Timely now)
    (hontime : s.OnTime now (mid ++ (u, .sweep) :: history)) (hnone : s.NoneOpens key mid)
    (hopen : ∀ e ∈ mid, ¬ Settles key deadline e) :
    acksIn key ((s.run mid).output u .sweep) =
      if deadline ≤ u then [.emptyAck key.id] else [] := by
  obtain ⟨now', h', ⟨hnow', -, -⟩, hw'⟩ := hw.run h hontime hnone hopen
  obtain ⟨expires, hr, -⟩ := hw'.waits
  rw [output, acksIn_sweep_of_waits ⟨expires, hr⟩]
  simp only [hw'.mem_due_iff h' hnow']

/-! ## Sweeps that come -/

/-- A run that goes on for more than an interval after a deadline has a sweep in between. -/
theorem exists_first_sweep (hontime : s.OnTime now history)
    (hsweep : s.nextSweep ≤ deadline + s.sweepInterval)
    (hlate : ∃ e ∈ history, deadline + s.sweepInterval < e.1) :
    ∃ mid u later, history = mid ++ (u, .sweep) :: later ∧ deadline ≤ u ∧
      u ≤ deadline + s.sweepInterval ∧ ∀ v, (v, .sweep) ∈ mid → v < deadline := by
  -- until the deadline the next sweep moves along with the history
  induction history generalizing s now with
  | nil =>
    obtain ⟨e, he, -⟩ := hlate
    cases he
  | cons e rest ih =>
    obtain ⟨t, event⟩ := e
    obtain ⟨hnow, ht, hrest⟩ := hontime
    obtain ⟨x, hx, hxlate⟩ := hlate
    have hsoon : t ≤ deadline + s.sweepInterval := Nat.le_trans ht hsweep
    have hxrest : x ∈ rest := by
      rcases List.mem_cons.mp hx with rfl | hx
      · exact absurd hxlate (Nat.not_lt_of_le hsoon)
      · exact hx
    have hinterval := (sameTimes_step s t event).2
    by_cases hfound : event = .sweep ∧ deadline ≤ t
    · obtain ⟨rfl, hdue⟩ := hfound
      exact ⟨[], t, rest, rfl, hdue, hsoon, fun v hv => by cases hv⟩
    · -- only a sweep moves the next one, and it was before the deadline
      have hnext : (s.step t event).nextSweep ≤ deadline + (s.step t event).sweepInterval := by
        rw [hinterval]
        cases event with
        | receive peer m =>
          obtain ⟨_, _, hframe, -⟩ := queues_receive s t peer m
          rw [step, hframe]
          exact hsweep
        | send peer m =>
          obtain ⟨_, hframe⟩ := send_frame s peer m
          rw [step, hframe]
          exact hsweep
        | sweep =>
          obtain ⟨_, _, _, -, -, hframe, -⟩ := sweep_frame s t
          rw [step, hframe]
          have hearly : t ≤ deadline := Nat.le_of_not_le fun hdue => hfound ⟨rfl, hdue⟩
          exact Nat.add_le_add_right hearly _
      obtain ⟨mid, u, later, rfl, hdue, hin, hfirst⟩ :=
        ih hrest hnext ⟨x, hxrest, by rwa [hinterval]⟩
      rw [hinterval] at hin
      refine ⟨(t, event) :: mid, u, later, rfl, hdue, hin, fun v hv => ?_⟩
      rcases List.mem_cons.mp hv with heq | hv
      · cases heq
        exact Nat.lt_of_not_le fun hdue => hfound ⟨rfl, hdue⟩
      · exact hfirst v hv

/-- Without a message that carries its ID, none is let through under a key. -/
theorem noneOpens_of_absent (s : Incoming)
    (habsent : ∀ v m, (v, .receive key.peer m) ∈ mid → m.id ≠ key.id) : s.NoneOpens key mid := by
  induction mid generalizing s with
  | nil => trivial
  | cons e rest ih =>
    obtain ⟨t, event⟩ := e
    refine ⟨fun hopens => ?_, ih _ fun v m hm => habsent v m (List.mem_cons_of_mem _ hm)⟩
    cases event with
    | receive peer m =>
      obtain ⟨rfl, -⟩ := hopens
      exact habsent t m (List.mem_cons_self ..) rfl
    | _ => exact hopens

/-! ## The law -/

variable {c : Config} {before after : History} {request : Message}

/-- A request that has been let through waits until its deadline. -/
theorem Accepts.waitsUntil (haccepts : (start c).Accepts before t key request)
    (hlong : c.emptyAckDelay + c.sweepInterval ≤ c.exchangeLifetime)
    (hontime : (start c).OnTime 0 (before ++ (t, .receive key.peer request) :: after)) :
    ((start c).accepted before t key request).Timely t ∧
      ((start c).accepted before t key request).OnTime t after ∧
      ((start c).accepted before t key request).WaitsUntil t key (t + c.emptyAckDelay) := by
  obtain ⟨now, -, htimely, hnow, ht, hrest⟩ := (timely_start hlong).run hontime
  have hafter : ((start c).accepted before t key request).Timely t := htimely.step hnow ht _
  obtain ⟨hdelay, -⟩ := sameTimes_run (start c) before
  obtain ⟨hdelay', -⟩ := sameTimes_step ((start c).run before) t (.receive key.peer request)
  have hlifetime := exchangeLifetime_run (start c) before
  have hlifetime' := (sameLifetimes_step ((start c).run before) t (.receive key.peer request)).1
  have hsettings : ((start c).accepted before t key request).emptyAckDelay = c.emptyAckDelay ∧
      ((start c).accepted before t key request).exchangeLifetime = c.exchangeLifetime :=
    ⟨hdelay'.trans hdelay, hlifetime'.trans hlifetime⟩
  refine ⟨hafter, hrest, ⟨_, haccepts.get?, ?_⟩, ?_⟩
  · rw [hsettings.1, hsettings.2, hlifetime]
    exact Nat.add_right_comm ..
  · rw [hsettings.1]
    intro hzero
    rw [hzero]
    exact Nat.le_refl _

/-- A request that waits has not been acknowledged. -/
theorem Accepts.answers_eq_nil (haccepts : (start c).Accepts before t key request)
    (hnone : ((start c).accepted before t key request).NoneOpens key mid)
    (hwaits : (((start c).accepted before t key request).run mid).Waits key) :
    ((start c).accepted before t key request).answers key mid = [] := by
  obtain ⟨expires, hr⟩ := hwaits
  obtain ⟨σ, hanswers, hr'⟩ | ⟨hgone, -⟩ := answers_accepted (sound_start c) haccepts hnone
  · cases hr.symm.trans hr'
    obtain ⟨-, hgiven⟩ | ⟨hσ, -⟩ | ⟨_, hσ, -⟩ := hanswers.of_waiting
    · exact hgiven
    · cases hσ
    · cases hσ
  · rw [hgone] at hr
    cases hr

/-- **Empty acknowledgements go out on time.**  In every run in which no sweep is late, and as long
as the ID of a request is not taken by a new message, the first sweep at or after its deadline
sends an empty acknowledgement if no copy of the request and no response has been processed
before.  No other sweep sends one, and there is such a sweep within an interval.  After every
sweep, all that waits was let through so lately that its deadline is not over. -/
theorem swept_on_time (c : Config)
    (hlong : c.emptyAckDelay + c.sweepInterval ≤ c.exchangeLifetime) :
    (∀ key before t request after,
      (start c).OnTime 0 (before ++ (t, .receive key.peer request) :: after) →
      (start c).Accepts before t key request →
      let s := (start c).accepted before t key request
      let deadline := t + c.emptyAckDelay
      ((∃ e ∈ after, deadline + c.sweepInterval < e.1) →
        ∃ mid u later, after = mid ++ (u, .sweep) :: later ∧ deadline ≤ u ∧
          u ≤ deadline + c.sweepInterval ∧ ∀ v, (v, .sweep) ∈ mid → v < deadline) ∧
      ∀ mid u later, after = mid ++ (u, .sweep) :: later →
        ((∀ e ∈ mid, e.1 < t + c.exchangeLifetime) ∨
          (∀ v m, (v, .receive key.peer m) ∈ mid → m.id ≠ key.id) → s.NoneOpens key mid) ∧
        (s.NoneOpens key mid →
          let sent := acksIn key ((s.run mid).output u .sweep)
          ((∀ e ∈ mid, ¬ Settles key deadline e) →
            s.answers key mid = [] ∧ (deadline ≤ u → sent = [.emptyAck key.id])) ∧
          (u < deadline ∨ (∃ e ∈ mid, Settles key deadline e) → sent = []))) ∧
    ∀ key history u, (start c).OnTime 0 (history ++ [(u, .sweep)]) →
      ((start c).run (history ++ [(u, .sweep)])).Waits key →
      ∃ before t request after,
        history ++ [(u, .sweep)] = before ++ (t, .receive key.peer request) :: after ∧
        (start c).Accepts before t key request ∧
        ((start c).accepted before t key request).NoneOpens key after ∧
        u < t + c.emptyAckDelay := by
  have hs := sound_start c
  constructor
  · intro key before t request after hontime haccepts s deadline
    obtain ⟨htimely, hafter, hwaits⟩ := haccepts.waitsUntil hlong hontime
    have hinterval : s.sweepInterval = c.sweepInterval :=
      (sameTimes_step _ _ _).2.trans (sameTimes_run (start c) before).2
    constructor
    · -- sweeps are not late, so one comes within an interval
      intro hlate
      have hsweep : s.nextSweep ≤ deadline + s.sweepInterval :=
        Nat.le_trans htimely.scheduled.nextSweep (Nat.add_le_add_right (Nat.le_add_right _ _) _)
      rw [← hinterval] at hlate ⊢
      exact exists_first_sweep hafter hsweep hlate
    · rintro mid u later rfl
      constructor
      · rintro (hlive | habsent)
        · have hget := haccepts.get?
          rw [exchangeLifetime_run] at hget
          exact noneOpens_of_lt htimely.sound hget hlive
        · exact noneOpens_of_absent s habsent
      · -- a sweep sends what still waits, if it is due
        intro hnone sent
        have hsent (hopen : ∀ e ∈ mid, ¬ Settles key deadline e) :
            sent = if deadline ≤ u then [.emptyAck key.id] else [] :=
          hwaits.acksIn_sweep htimely hafter hnone hopen
        have hsettledsent (hsettled : ∃ e ∈ mid, Settles key deadline e) : sent = [] :=
          acksIn_sweep_of_not_waits (hwaits.not_waits_run htimely hafter hnone hsettled)
        constructor
        · intro hopen
          refine ⟨?_, fun hdue => (hsent hopen).trans (if_pos hdue)⟩
          obtain ⟨_, -, -, ⟨⟨expires, hr, -⟩, -⟩⟩ := hwaits.run htimely hafter hnone hopen
          exact haccepts.answers_eq_nil hnone ⟨expires, hr⟩
        · rintro (hearly | hsettled)
          · by_cases hopen : ∀ e ∈ mid, ¬ Settles key deadline e
            · exact (hsent hopen).trans (if_neg (Nat.not_le_of_lt hearly))
            · exact hsettledsent (by simpa using hopen)
          · exact hsettledsent hsettled
  · intro key history u hontime ⟨expires, hr⟩
    obtain ⟨hstart, -⟩ | ⟨before, t, request, after, hhistory, haccepts, hnone⟩ :=
      exists_accepts_of_waiting hs hr
    · cases hstart
    · refine ⟨before, t, request, after, hhistory, haccepts, hnone, ?_⟩
      -- if its deadline were over, this sweep would have sent the acknowledgement
      refine Nat.lt_of_not_le fun hdue => ?_
      rw [hhistory] at hontime hr
      rw [run_append] at hr
      obtain ⟨htimely, hafter, hwaits⟩ := haccepts.waitsUntil hlong hontime
      rw [← List.append_nil after] at hafter
      exact hwaits.not_waits_run htimely hafter hnone
        ⟨_, mem_after_of_concat (by simp) hhistory, hdue⟩ ⟨expires, hr⟩

/-- A request comes between two sweeps and waits for two tenths of a second: of the three sweeps
that follow, the last one sends its acknowledgement. -/
theorem swept_on_time_third :
    let c : Config := { Config.standard with emptyAckDelay := Duration.ofMillis 200 }
    let key : MessageKey := ⟨⟨1⟩, 5⟩
    let request : Message := { type := .confirmable, code := .request .get, id := 5 }
    let arrival : Instant := Duration.ofMillis 50
    let mid : History := [(Duration.ofMillis 100, .sweep), (Duration.ofMillis 200, .sweep)]
    let s := (start c).accepted [] arrival key request
    (start c).Accepts [] arrival key request ∧ s.answers key mid = [] ∧
      acksIn key ((s.run mid).output (Duration.ofMillis 300) .sweep) = [.emptyAck 5] := by
  intro c key request arrival mid s
  have hlong : c.emptyAckDelay + c.sweepInterval ≤ c.exchangeLifetime := by decide +kernel
  have haccepts : (start c).Accepts [] arrival key request :=
    ⟨⟨rfl, by decide⟩, rfl, by decide +kernel⟩
  have hontime : (start c).OnTime 0 ((arrival, .receive key.peer request) :: mid ++
      [(Duration.ofMillis 300, .sweep)]) := by
    simp only [mid, List.cons_append, List.nil_append, OnTime]
    decide +kernel
  have hopen : ∀ e ∈ mid, ¬ Settles key (arrival + c.emptyAckDelay) e := by
    refine List.forall_mem_cons.mpr ⟨?_, List.forall_mem_singleton.mpr ?_⟩
    · exact (by decide +kernel : ¬ arrival + c.emptyAckDelay ≤ Duration.ofMillis 100)
    · exact (by decide +kernel : ¬ arrival + c.emptyAckDelay ≤ Duration.ofMillis 200)
  obtain ⟨hswept, -⟩ := swept_on_time c hlong
  obtain ⟨-, hsweeps⟩ := hswept key [] arrival request _ hontime haccepts
  obtain ⟨hnone, hsent⟩ := hsweeps mid (Duration.ofMillis 300) [] rfl
  have hnever := hnone (.inr fun v m hm => by simp [mid] at hm)
  obtain ⟨hnothing, hack⟩ := (hsent hnever).1 hopen
  exact ⟨haccepts, hnothing, hack (by decide +kernel)⟩

end Coap.Incoming
