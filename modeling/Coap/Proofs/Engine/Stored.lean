/-
# What is sent again

Two layers keep messages to send them again: one repeats what was not acknowledged, the other
keeps responses for the duplicates of requests.  A message goes through both as it is, but for
its type and ID, and what they send of their own accord are empty signals.
-/
import Coap.Proofs.Engine.Clerical

namespace Coap

/-- A message that is only an acknowledgement or a rejection. -/
def Message.IsSignal (m : Message) : Prop := ∃ id, m = .emptyAck id ∨ m = .resetOf id

/-- The messages differ in type and ID at most. -/
def Message.SameContent (m m' : Message) : Prop := ∃ type id, m' = { m with type, id }

namespace Message.SameContent

variable {m m' m'' : Message}

theorem refl (m : Message) : m.SameContent m := ⟨_, _, rfl⟩

theorem trans (h : m.SameContent m') (h' : m'.SameContent m'') : m.SameContent m'' := by
  obtain ⟨_, _, rfl⟩ := h
  obtain ⟨type, id, rfl⟩ := h'
  exact ⟨type, id, rfl⟩

end Message.SameContent

/-! ## Stored responses -/

namespace Incoming

variable {s s' : Incoming} {t : Instant} {key k : MessageKey} {peer : Endpoint}
  {m response : Message}

/-- A response is stored for the duplicates of a request. -/
def Stores (s : Incoming) (key : MessageKey) (response : Message) : Prop :=
  ∃ expires, s.records.get? key = some ⟨.responded response, expires⟩

/-- A record without a response takes none in. -/
theorem Writes.stores {r : IncomingRecord} (h : Writes s s' key r)
    (hr : ∀ response, r.state ≠ .responded response) (hs : s'.Stores k response) :
    s.Stores k response := by
  obtain ⟨expires, hget⟩ := hs
  rw [h] at hget
  split at hget
  · exact absurd (congrArg IncomingRecord.state (Option.some.inj hget)) (hr response)
  · exact ⟨expires, hget⟩

/-- No response comes to be stored by what comes in. -/
theorem stores_receive (h : (s.receive t peer m).2.2.Stores key response) :
    s.Stores key response := by
  have hcases := receive_cases s t peer m
  generalize (s.receive t peer m).2.1 = sent at hcases
  generalize (s.receive t peer m).2.2 = s' at hcases h
  cases hcases with
  | passed | refused | known | resent | unasked => exact h
  | opened _ _ hwrites _ hstate => exact hwrites.stores hstate h
  | acknowledged _ _ _ hwrites => exact hwrites.stores (fun _ hstate => by cases hstate) h

/-- What goes back to the peer at once is a signal, or the response that is stored. -/
theorem sent_receive {answer : Message} (h : answer ∈ (s.receive t peer m).2.1) :
    answer.IsSignal ∨ s.Stores ⟨peer, m.id⟩ answer := by
  have hcases := receive_cases s t peer m
  generalize (s.receive t peer m).2.1 = sent at hcases h
  generalize (s.receive t peer m).2.2 = s' at hcases
  have hack (hsent : sent = [] ∨ m.isResponse ∧ sent = [.emptyAck m.id]) : answer.IsSignal := by
    rcases hsent with rfl | ⟨-, rfl⟩
    · cases h
    · exact ⟨m.id, .inl (List.mem_singleton.1 h)⟩
  cases hcases with
  | passed | unasked => cases h
  | refused => exact .inl ⟨m.id, .inr (List.mem_singleton.1 h)⟩
  | opened _ _ _ _ _ _ hsent => exact .inl (hack hsent)
  | known _ _ hsent => exact .inl (hack hsent)
  | @resent response expires _ hlive =>
    obtain rfl := List.mem_singleton.1 h
    exact .inr ⟨expires, (live?_eq_some_iff.1 hlive).1⟩
  | acknowledged => exact .inl ⟨m.id, .inl (List.mem_singleton.1 h)⟩

/-- A response is stored when it is sent on the acknowledgement of its request. -/
theorem stores_send (h : (s.send peer m).2.Stores key response) : s.Stores key response ∨
    ⟨peer, m.id⟩ = key ∧ response = m ∧ m.type = .acknowledgement ∧ ¬ m.isEmpty := by
  rcases send_cases s peer m with ⟨hsame, -⟩ | ⟨expires, -, htype, hfull, -, hwrites⟩
  · rw [hsame] at h
    exact .inl h
  · obtain ⟨expires', hget⟩ := h
    rw [hwrites] at hget
    split at hget
    · next hkey =>
      cases Option.some.inj hget
      exact .inr ⟨hkey, rfl, htype, hfull⟩
    · exact .inl ⟨expires', hget⟩

theorem stores_fireAcks (due : List MessageKey) (h : (fireAcks due s).2.Stores key response) :
    s.Stores key response := by
  induction due generalizing s with
  | nil => exact h
  | cons k rest ih =>
    rw [fireAcks] at h
    split at h
    · exact (writes_record _ _ _).stores (fun _ hstate => by cases hstate) (ih h)
    · exact ih h

theorem stores_sweep (h : (s.sweep t).2.Stores key response) : s.Stores key response := by
  obtain ⟨due, s', hsame, -, hafter⟩ := exists_sweep s t
  obtain ⟨expires, hget⟩ := h
  rw [hafter] at hget
  obtain ⟨expires', hget'⟩ := stores_fireAcks due ⟨expires, get?_of_get?_purge hget⟩
  rw [hsame] at hget'
  exact ⟨expires', hget'⟩

theorem stores_step {event : Event} (h : (s.step t event).Stores key response) :
    s.Stores key response ∨ event = .send key.peer response := by
  cases event with
  | receive peer m => exact .inl (stores_receive h)
  | send peer m =>
    refine (stores_send h).imp_right ?_
    rintro ⟨rfl, rfl, -⟩
    rfl
  | sweep => exact .inl (stores_sweep h)

theorem signal_of_fireAcks (due : List MessageKey) :
    ∀ x ∈ (fireAcks due s).1, x.2.IsSignal := by
  induction due generalizing s with
  | nil =>
    intro x hx
    cases hx
  | cons k rest ih =>
    intro x hx
    rw [fireAcks] at hx
    split at hx
    · rcases List.mem_cons.1 hx with rfl | hrest
      · exact ⟨k.id, .inl rfl⟩
      · exact ih x hrest
    · exact ih x hx

/-- The acknowledgements that fall due are empty. -/
theorem signal_of_sweep : ∀ x ∈ (s.sweep t).1, x.2.IsSignal := by
  obtain ⟨due, s', -, hsent, -⟩ := exists_sweep s t
  intro x hx
  rw [hsent] at hx
  exact signal_of_fireAcks due x hx

theorem sameContent_send (s : Incoming) (peer : Endpoint) (m : Message) :
    m.SameContent (s.send peer m).1 := by
  rcases s.retyped_send peer m with hsame | ⟨-, hretyped⟩
  · rw [hsame]
    exact .refl m
  · rw [hretyped]
    exact ⟨_, _, rfl⟩

end Incoming

namespace Outgoing

variable {s : Outgoing} {now : Instant} {peer : Endpoint} {m m' : Message}

/-- A message is sent as it is but for the ID it gets. -/
theorem eq_of_send (h : (s.send now peer m).1 = .ok m') : m' = { m with id := m'.id } := by
  have hcases := send_cases s now peer m
  rw [h] at hcases
  generalize (s.send now peer m).2 = s' at hcases
  cases hcases with
  | plain | numbered | opened => rfl

/-- What is repeated is the message of an open exchange. -/
theorem open_of_fire {outboxOpen : Bool} {x : Endpoint × Message}
    (h : x ∈ (s.fire outboxOpen now).1.sent) : ∃ id, s.openMessage? ⟨x.1, id⟩ = some x.2 := by
  obtain ⟨⟨k, x₀⟩, hdue, hrenewed⟩ := List.mem_filterMap.1 h
  obtain ⟨x', hx', rfl⟩ := Option.map_eq_some_iff.1 hrenewed
  have hget : s.exchanges.get? k = some x₀ := by
    rw [← exchanges_purgeIds]
    exact Table.mem_entries_iff.1 (List.mem_filter.1 hdue).1
  exact ⟨k.id, Option.map_eq_some_iff.2 ⟨x₀, hget, (OpenExchange.message_of_renew hx').symm⟩⟩

end Outgoing

end Coap
