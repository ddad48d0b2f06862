/-
# Runs of the layer that receives messages

What happens at this layer, one thing after the other: messages come in, messages go out,
and the timer sweeps.  A run is the state that such a history leaves.  All of them touch the
same records, but the records have one thing in common that is easy to follow: for how long
a message is remembered.  Only a message that is let through changes it (`remembers_step`).
-/
import Coap.Exchange.Incoming
import Mathlib.Data.Option.Basic

namespace Coap.Incoming

/-! ## Histories -/

/-- What happens at this layer. -/
inductive Event
  | receive (peer : Endpoint) (m : Message)
  | send (peer : Endpoint) (m : Message)
  | sweep
deriving DecidableEq

/-- What happened when. -/
abbrev History := List (Instant × Event)

/-- The state after an event. -/
def step (s : Incoming) (now : Instant) : Event → Incoming
  | .receive peer m => (s.receive now peer m).2.2
  | .send peer m => (s.send peer m).2
  | .sweep => (s.sweep now).2

/-- The state after a history. -/
def run (s : Incoming) : History → Incoming
  | [] => s
  | (t, event) :: rest => run (s.step t event) rest

/-- Whether an event is a message that is let through. -/
def forwards (s : Incoming) (now : Instant) : Event → Bool
  | .receive peer m => (s.receive now peer m).1 = .forward m
  | _ => false

/-- The messages of a history that are let through. -/
def forwarded (s : Incoming) : History → History
  | [] => []
  | (t, event) :: rest =>
    if s.forwards t event then (t, event) :: forwarded (s.step t event) rest
    else forwarded (s.step t event) rest

/-! ## What is remembered -/

variable {s : Incoming} {t now : Instant} {key key' : MessageKey} {peer : Endpoint}
  {m : Message} {event : Event}

/-- There is a record of the message, and it has not expired. -/
def Remembers (s : Incoming) (now : Instant) (key : MessageKey) : Prop :=
  ∃ r, s.records.get? key = some r ∧ now < r.expires

/-- For how long a message is remembered, if it is at all. -/
def lifetime? (s : Incoming) (m : Message) : Option Duration :=
  match m.type with
  | .confirmable => some s.exchangeLifetime
  | .nonConfirmable => some s.nonLifetime
  | .acknowledgement => none
  | .reset => none

/-- The lifetimes are settings, and both states have the same. -/
def SameLifetimes (s s' : Incoming) : Prop :=
  s'.exchangeLifetime = s.exchangeLifetime ∧ s'.nonLifetime = s.nonLifetime

/-- For how long a message is remembered depends on the lifetimes only. -/
theorem SameLifetimes.lifetime?_eq {s' : Incoming} (h : SameLifetimes s s') (m : Message) :
    s'.lifetime? m = s.lifetime? m := by
  rw [lifetime?, lifetime?, h.1, h.2]

/-- The messages that are let through only once: confirmable requests and responses, and all
non-confirmable messages. -/
def Watched (m : Message) : Prop :=
  m.type = .confirmable ∧ (m.isRequest ∨ m.isResponse) ∨ m.type = .nonConfirmable

/-- A live record is one whose time is not over. -/
theorem live?_eq_some_iff {r : IncomingRecord} :
    s.live? now key = some r ↔ s.records.get? key = some r ∧ now < r.expires := by
  rw [live?, Option.filter_eq_some_iff, decide_eq_true_eq]

/-- A message is remembered if its record is live. -/
theorem remembers_iff : s.Remembers now key ↔ ∃ r, s.live? now key = some r := by
  simp only [Remembers, live?_eq_some_iff]

/-- A message is not remembered if no record of it is live. -/
theorem live?_eq_none_iff : s.live? now key = none ↔ ¬ s.Remembers now key := by
  rw [remembers_iff, Option.eq_none_iff_forall_ne_some, not_exists]

/-- What is remembered was so before. -/
theorem Remembers.earlier (h : s.Remembers now key) (ht : t ≤ now) : s.Remembers t key := by
  obtain ⟨r, hr, hlt⟩ := h
  exact ⟨r, hr, Nat.lt_of_le_of_lt ht hlt⟩

/-! ### Records -/

/-- What is recorded is remembered until it expires. -/
theorem remembers_record (state : AckState) (expires : Instant) :
    (s.record key state expires).Remembers now key' ↔
      if key = key' then now < expires else s.Remembers now key' := by
  simp only [Remembers, record, Table.get?_insert]
  split <;> simp

/-- A record may be rewritten as long as it expires when it did. -/
theorem remembers_record_of_get? {r : IncomingRecord} (h : s.records.get? key = some r)
    (state : AckState) :
    (s.record key state r.expires).Remembers now key' ↔ s.Remembers now key' := by
  rw [remembers_record]
  split
  · next hkey =>
    rw [← hkey, Remembers, h]
    simp
  · rfl

/-! ### One lemma for each kind of event -/

/-- Acknowledgements that are sent on time change no time. -/
theorem remembers_fireAcks (due : List MessageKey) (s : Incoming) :
    (fireAcks due s).2.Remembers now key ↔ s.Remembers now key := by
  induction due generalizing s with
  | nil => rfl
  | cons k rest ih =>
    rw [fireAcks]
    split
    · next expires h =>
      exact (ih _).trans (remembers_record_of_get? h .acknowledged)
    · exact ih s

/-- A purge takes only what is not remembered any more. -/
theorem remembers_purge (ht : t ≤ now) : (s.purge t).Remembers now key ↔ s.Remembers now key := by
  unfold purge
  split
  · simp only [Remembers, Table.get?_filter, Option.filter_eq_some_iff, decide_eq_true_eq]
    -- a record that outlives `now` has not expired at `t`
    refine exists_congr fun r => ⟨fun h => ⟨h.1.1, h.2⟩, fun h => ⟨⟨h.1, ?_⟩, h.2⟩⟩
    exact Nat.lt_of_le_of_lt ht h.2
  · rfl

/-- So a sweep changes nothing in what is remembered. -/
theorem remembers_sweep (ht : t ≤ now) :
    (s.sweep t).2.Remembers now key ↔ s.Remembers now key :=
  (remembers_purge ht).trans (remembers_fireAcks _ _)

/-- Neither does a message that goes out. -/
theorem remembers_send (peer : Endpoint) (m : Message) :
    (s.send peer m).2.Remembers now key ↔ s.Remembers now key := by
  unfold send
  split
  · dsimp only
    split
    · next expires h => exact remembers_record_of_get? h (.responded m)
    · rfl
  · rfl

/-- What becomes of a message that is let through only once: it is let through and remembered
for its lifetime, or it is consumed and what is remembered does not change. -/
inductive Handled (s : Incoming) (t : Instant) (key : MessageKey) (m : Message)
    (lifetime : Duration) : Verdict → Incoming → Prop
  | fresh {s' : Incoming} (h : ¬ s.Remembers t key) (hlifetimes : SameLifetimes s s')
      (hs : ∀ now key', s'.Remembers now key' ↔
        if key = key' then now < t + lifetime else s.Remembers now key') :
      Handled s t key m lifetime (.forward m) s'
  | known {s' : Incoming} (h : s.Remembers t key) (hlifetimes : SameLifetimes s s')
      (hs : ∀ now key', s'.Remembers now key' ↔ s.Remembers now key') :
      Handled s t key m lifetime .consume s'

/-- A message is handed on if it is not remembered, and remembered from then on. -/
theorem handled_remember (state : AckState) (lifetime : Duration) :
    Handled s t key m lifetime (if (s.remember t key state lifetime).1 then .forward m else .consume)
      (s.remember t key state lifetime).2 := by
  unfold remember
  split
  · next r h => exact .known (remembers_iff.mpr ⟨r, h⟩) ⟨rfl, rfl⟩ fun _ _ => Iff.rfl
  · next h => exact .fresh (live?_eq_none_iff.mp h) ⟨rfl, rfl⟩ fun _ _ => remembers_record ..

/-- This is what is done with a request that is confirmable. -/
theorem handled_receiveRequest : Handled s t key m s.exchangeLifetime
    (s.receiveRequest t key m).1 (s.receiveRequest t key m).2.2 := by
  unfold receiveRequest
  split
  · next h => exact .fresh (live?_eq_none_iff.mp h) ⟨rfl, rfl⟩ fun _ _ => remembers_record ..
  · next r h =>
    have hknown := remembers_iff.mpr ⟨r, h⟩
    split
    · exact .known hknown ⟨rfl, rfl⟩ fun _ _ => Iff.rfl
    · exact .known hknown ⟨rfl, rfl⟩ fun _ _ => Iff.rfl
    · -- the record is rewritten, but it keeps the time when it expires
      have hr := (live?_eq_some_iff.mp h).1
      exact .known hknown ⟨rfl, rfl⟩ fun _ _ => remembers_record_of_get? hr _
    · exact .known hknown ⟨rfl, rfl⟩ fun _ _ => Iff.rfl

/-- Every message that is watched is handed on if it is new, and remembered. -/
theorem handled_receive (s : Incoming) (t : Instant) (peer : Endpoint) (hm : Watched m) :
    ∃ lifetime, s.lifetime? m = some lifetime ∧
    Handled s t ⟨peer, m.id⟩ m lifetime (s.receive t peer m).1 (s.receive t peer m).2.2 := by
  rcases hm with ⟨htype, hcode⟩ | htype
  · refine ⟨s.exchangeLifetime, by simp only [lifetime?, htype], ?_⟩
    simp only [Message.isRequest, Message.isResponse, Code.isRequest, Code.isResponse,
      Code.method?, Code.status?] at hcode
    simp only [receive, htype]
    cases hmeaning : m.code.meaning with
    | empty => simp [hmeaning] at hcode
    | reserved => simp [hmeaning] at hcode
    | response => exact handled_remember _ _
    | request => exact handled_receiveRequest
  · refine ⟨s.nonLifetime, by simp only [lifetime?, htype], ?_⟩
    simp only [receive, htype]
    exact handled_remember _ _

/-- Other messages leave no trace.  Some of them are let through. -/
theorem receive_of_not_watched (hm : ¬ Watched m) : (s.receive t peer m).2.2 = s ∧
    ((s.receive t peer m).1 = .forward m ↔ s.lifetime? m = none) := by
  cases htype : m.type with
  | acknowledgement => simp [receive, lifetime?, htype]
  | reset => simp [receive, lifetime?, htype]
  | nonConfirmable => exact absurd (.inr htype) hm
  | confirmable =>
    have hcode : ¬(m.isRequest ∨ m.isResponse) := fun h => hm (.inl ⟨htype, h⟩)
    simp only [Message.isRequest, Message.isResponse, Code.isRequest, Code.isResponse,
      Code.method?, Code.status?] at hcode
    cases hmeaning : m.code.meaning with
    | empty => simp [receive, lifetime?, htype, hmeaning]
    | reserved => simp [receive, lifetime?, htype, hmeaning]
    | response => simp [hmeaning] at hcode
    | request => simp [hmeaning] at hcode

/-- A message is handed on exactly if it is not remembered. -/
theorem receive_eq_forward_iff (hm : Watched m) :
    (s.receive t peer m).1 = .forward m ↔ ¬ s.Remembers t ⟨peer, m.id⟩ := by
  obtain ⟨lifetime, -, h⟩ := handled_receive s t peer hm
  generalize (s.receive t peer m).1 = verdict at h
  cases h with
  | fresh h _ _ => simp [h]
  | known h _ _ => simp [h]

/-- A message is held back exactly if it is remembered. -/
theorem receive_eq_consume_iff (hm : Watched m) :
    (s.receive t peer m).1 = .consume ↔ s.Remembers t ⟨peer, m.id⟩ := by
  obtain ⟨lifetime, -, h⟩ := handled_receive s t peer hm
  generalize (s.receive t peer m).1 = verdict at h
  cases h with
  | fresh h _ _ => simp [h]
  | known h _ _ => simp [h]

/-! ### Lifetimes -/

/-- Acknowledgements leave the lifetimes alone. -/
theorem sameLifetimes_fireAcks (due : List MessageKey) (s : Incoming) :
    SameLifetimes s (fireAcks due s).2 := by
  induction due generalizing s with
  | nil => exact ⟨rfl, rfl⟩
  | cons k rest ih =>
    rw [fireAcks]
    split
    · next expires h => exact ih (s.record k .acknowledged expires)
    · exact ih s

/-- Every event leaves the lifetimes alone. -/
theorem sameLifetimes_step (s : Incoming) (t : Instant) (event : Event) :
    SameLifetimes s (s.step t event) := by
  cases event with
  | receive peer m =>
    rw [step]
    by_cases hm : Watched m
    · obtain ⟨lifetime, -, h⟩ := handled_receive s t peer hm
      generalize (s.receive t peer m).1 = verdict at h
      cases h with
      | fresh _ hlifetimes _ => exact hlifetimes
      | known _ hlifetimes _ => exact hlifetimes
    · rw [(receive_of_not_watched hm).1]
      exact ⟨rfl, rfl⟩
  | send peer m =>
    rw [step, send]
    split
    · dsimp only
      split <;> exact ⟨rfl, rfl⟩
    · exact ⟨rfl, rfl⟩
  | sweep =>
    have h := sameLifetimes_fireAcks
      ((s.schedule.takeWhile fun e => e.1 ≤ t).map (·.2))
      { s with schedule := s.schedule.drop (s.schedule.takeWhile fun e => e.1 ≤ t).length }
    rw [step, sweep]
    dsimp only
    rw [purge]
    split <;> exact h

/-! ## What an event changes -/

/-- A message is let through if it is not watched for, as an acknowledgement or a reset, or if
it is not remembered. -/
theorem forwards_receive_iff : s.forwards t (.receive peer m) ↔
    s.lifetime? m = none ∨ Watched m ∧ ¬ s.Remembers t ⟨peer, m.id⟩ := by
  rw [forwards, decide_eq_true_eq]
  by_cases hm : Watched m
  · obtain ⟨lifetime, hlifetime, -⟩ := handled_receive s t peer hm
    rw [receive_eq_forward_iff hm, hlifetime]
    simp [hm]
  · rw [(receive_of_not_watched hm).2]
    simp [hm]

/-- The event is a message with this key, and that one would still be remembered. -/
def Covers (s : Incoming) (e : Instant × Event) (key : MessageKey) (now : Instant) : Prop :=
  ∃ m lifetime, e.2 = .receive key.peer m ∧ m.id = key.id ∧ s.lifetime? m = some lifetime ∧
    now < e.1 + lifetime

/-- **What an event changes.**  A message is remembered after an event if it was before, or
if the event is this message and it is let through. -/
theorem remembers_step (ht : t ≤ now) : (s.step t event).Remembers now key ↔
    s.Remembers now key ∨ s.forwards t event ∧ s.Covers (t, event) key now := by
  cases event with
  | send peer m =>
    refine (remembers_send peer m).trans ?_
    simp [forwards]
  | sweep =>
    refine (remembers_sweep ht).trans ?_
    simp [forwards]
  | receive peer m =>
    have hcovers : s.Covers (t, .receive peer m) key now ↔ (⟨peer, m.id⟩ : MessageKey) = key ∧
        ∃ lifetime, s.lifetime? m = some lifetime ∧ now < t + lifetime := by
      obtain ⟨p, i⟩ := key
      constructor
      · rintro ⟨_, lifetime, he, hid, hl⟩
        cases he
        cases hid
        exact ⟨rfl, lifetime, hl⟩
      · rintro ⟨hkey, lifetime, hl⟩
        cases hkey
        exact ⟨m, lifetime, rfl, rfl, hl⟩
    rw [hcovers, forwards_receive_iff, step]
    by_cases hm : Watched m
    · obtain ⟨lifetime, hlifetime, h⟩ := handled_receive s t peer hm
      generalize (s.receive t peer m).1 = verdict at h
      generalize (s.receive t peer m).2.2 = s' at h
      cases h with
      | fresh h _ hs =>
        rw [hs]
        split
        · next hkey =>
          -- what was not remembered at `t` is not remembered later either
          subst hkey
          have hnow : ¬ s.Remembers now ⟨peer, m.id⟩ := fun hr => h (hr.earlier ht)
          simp [hnow, h, hm, hlifetime]
        · next hkey => simp [hkey]
      | known h _ hs =>
        rw [hs, hlifetime]
        simp [h]
    · rw [(receive_of_not_watched hm).1]
      refine (or_iff_left ?_).symm
      rintro ⟨hforward, -, lifetime, hlifetime, -⟩
      rcases hforward with h | h
      · rw [h] at hlifetime
        cases hlifetime
      · exact hm h.1

end Coap.Incoming
