/-
# Histories of subscriptions

Whatever happens, one thing after the other: resources are added, attached, changed and
removed, requests to observe are answered and taken back, notifications go out and come back
rejected.  The two tables that the subscriptions are kept in agree after every such history,
because each operation leaves them in agreement.
-/
import Coap.Proofs.Observe.Index

namespace Coap.Subscriptions

variable {s t : Subscriptions}

namespace Consistent

/-! ## Resources -/

/-- Without subscriptions the tables agree. -/
theorem empty (firstNumbers : Draws SequenceNumber) : Consistent { firstNumbers } := by
  refine ⟨fun path key => ?_, fun path => ?_, fun path => ?_, fun key path hk => ?_⟩
  · simp [keysAt, path?]
  · simp
  · simp [keysAt]
  · simp [path?] at hk

/-- A resource that is added has no observers. -/
theorem addResource (h : s.Consistent) (r : Resource) : (s.addResource r).2.Consistent :=
  h.congr rfl (fun _ => rfl) fun _ => id

/-- Resources are not in the tables. -/
theorem modifyResource (h : s.Consistent) (id : ResourceId) (f : Resource → Resource) :
    (s.modifyResource id f).Consistent :=
  h.congr rfl (fun _ => rfl) fun _ hpath => hpath

/-- A resource may be rendered without an effect on the tables. -/
theorem render (h : s.Consistent) (id : ResourceId) (accept? : Option UInt16) :
    (s.render id accept?).2.Consistent := by
  unfold Subscriptions.render
  split
  · exact h
  · exact h.modifyResource _ _

/-- It may have been rendered before. -/
theorem renderOnce (h : s.Consistent) (id : ResourceId) (accept? : Option UInt16)
    (seen : Renderings) : (s.renderOnce id accept? seen).2.2.Consistent := by
  unfold Subscriptions.renderOnce
  split
  · exact h
  · exact h.render id accept?

/-- What was attached before at the path is replaced, and its observers stay. -/
theorem attach (h : s.Consistent) (path : String) (id : ResourceId) :
    (s.attach path id).Consistent := by
  unfold Subscriptions.attach
  split
  · exact h
  · refine h.congr rfl (fun _ => rfl) fun q hq => ?_
    simp only [Table.contains, Table.get?_insert]
    split
    · rfl
    · exact hq

/-! ## Subscriptions that stay -/

/-- An entry is replaced by one for the same path. -/
theorem update (h : s.Consistent) {key : ConversationKey} {x y : Subscription}
    (hx : s.entries.get? key = some x) (hpath : y.path = x.path) :
    Consistent { s with entries := s.entries.insert key y } := by
  refine h.congr rfl (fun k => ?_) fun _ => id
  by_cases hk : key = k
  · subst hk
    simp [path?, hx, hpath]
  · simp [path?, Table.get?_insert, hk]

/-- To record an ID leaves path and key as they are. -/
theorem recordId (h : s.Consistent) (key : ConversationKey) (id : MessageId) :
    (s.recordId key id).Consistent := by
  unfold Subscriptions.recordId Table.modify
  split
  · next x hx => exact h.update hx rfl
  · exact h

/-! ## Subscriptions that may end -/

/-- A failed exchange may end a subscription, in both tables. -/
theorem settle (h : s.Consistent) (event : ExchangeEvent) : (s.settle event).Consistent := by
  unfold Subscriptions.settle
  split
  · exact h
  · simp only
    split
    · split
      · exact h.remove _
      · exact h
    · exact h

/-- So may a message that comes in. -/
theorem receive (h : s.Consistent) (peer : Endpoint) (m : Message) :
    (s.receive peer m).2.Consistent := by
  unfold Subscriptions.receive
  split
  · split
    · exact h.remove _
    · exact h
  · split
    · exact h.remove _
    · exact h

/-- One that goes out may begin one, in both tables. -/
theorem send (h : s.Consistent) (peer : Endpoint) (m : Message) (request? : Option Message) :
    (s.send peer m request?).2.Consistent := by
  unfold Subscriptions.send
  split
  · exact h
  · next request =>
    split
    · simp only
      split
      · next hpath =>
        split <;> exact h.register _ _ hpath.2
      · exact h.remove _
    · exact h

/-! ## Changes and removals of resources -/

/-- One by one the observers are given a new number, or lose the subscription because the
state cannot be rendered for them. -/
theorem notifyEach (id : ResourceId) (type : MessageType) (keys : List ConversationKey) :
    ∀ (seen : Renderings) {s : Subscriptions}, s.Consistent →
      (Subscriptions.notifyEach id type keys seen s).2.Consistent := by
  induction keys with
  | nil => exact fun _ _ h => h
  | cons key rest ih =>
    intro seen s h
    unfold Subscriptions.notifyEach
    split
    · exact ih seen h
    · next x hx =>
      have hnumbered : Consistent
          { s with entries := s.entries.insert key { x with number := x.number.next } } :=
        h.update hx rfl
      have hrendered := hnumbered.renderOnce id x.accept? seen
      simp only
      split
      · exact ih _ hrendered
      · exact ih _ (hrendered.remove key)

/-- The observers of a path are listed there after a change, as far as they are left. -/
theorem change (h : s.Consistent) (path : String) (type? : Option MessageType) :
    (s.change path type?).2.Consistent := by
  unfold Subscriptions.change
  split
  · exact h
  · exact notifyEach _ _ _ _ h

end Consistent

/-- Dismissing observers takes their entries away, and does nothing else. -/
theorem dismissEach_eq (type : MessageType) (keys : List ConversationKey) (s : Subscriptions) :
    ∃ entries, (dismissEach type keys s).2 = { s with entries } ∧
      ∀ k, entries.get? k = if k ∈ keys then none else s.entries.get? k := by
  induction keys generalizing s with
  | nil => exact ⟨s.entries, rfl, by simp⟩
  | cons key rest ih =>
    unfold dismissEach
    split
    · obtain ⟨entries, heq, hget⟩ := ih { s with entries := s.entries.erase key }
      refine ⟨entries, by simp [heq], fun k => ?_⟩
      rw [hget, Table.get?_erase]
      by_cases hk : k = key
      · simp [hk]
      · simp [hk, Ne.symm hk]
    · next hnone =>
      obtain ⟨entries, heq, hget⟩ := ih s
      refine ⟨entries, heq, fun k => ?_⟩
      rw [hget]
      by_cases hk : k = key
      · subst hk
        have hget : s.entries.get? k = none := by simpa [Table.contains] using hnone
        simp [hget]
      · simp [hk]

namespace Consistent

/-- A path is detached together with its list of observers, who are exactly those that lose
their entries. -/
theorem detach (h : s.Consistent) (path : String) (listener : ListenerId) :
    (s.detach path listener).2.Consistent := by
  let cleared : Subscriptions :=
    { s with attached := s.attached.erase path, byPath := s.byPath.erase path }
  suffices hdismissed : ∀ type : MessageType,
      (dismissEach type (s.keysAt path) cleared).2.Consistent by
    unfold Subscriptions.detach
    simp only
    split
    · exact (hdismissed _).modifyResource _ _
    · exact hdismissed _
  intro type
  obtain ⟨entries, heq, hget⟩ := dismissEach_eq type (s.keysAt path) cleared
  rw [heq]
  -- both tables after that, seen from a key and from a path
  have hpath? (k : ConversationKey) :
      path? { cleared with entries } k = if s.path? k = some path then none else s.path? k := by
    unfold path?
    rw [hget]
    by_cases hk : k ∈ s.keysAt path
    · have hk' := (h.listed path k).1 hk
      simp only [path?] at hk'
      simp [hk, hk']
    · have hk' := mt (h.listed path k).2 hk
      simp only [path?] at hk'
      simp only [hk, if_false, hk']
      rfl
  have hkeys (q : String) : keysAt { cleared with entries } q =
      if path = q then [] else s.keysAt q := by
    by_cases hq : path = q <;> simp [keysAt, cleared, Table.get?_erase, hq]
  refine ⟨fun q k => ?_, fun q => ?_, fun q => ?_, fun k q hk => ?_⟩
  · rw [hkeys, hpath?]
    by_cases hq : path = q
    · subst hq
      by_cases hk : s.path? k = some path <;> simp [hk]
    · rw [if_neg hq, h.listed]
      by_cases hk : s.path? k = some path
      · simp [hk, hq]
      · simp [hk]
  · show (s.byPath.erase path).get? q ≠ some []
    rw [Table.get?_erase]
    split
    · simp
    · exact h.noneEmpty q
  · rw [hkeys]
    split
    · simp
    · exact h.nodup q
  · rw [hpath?] at hk
    split at hk
    · simp at hk
    · next hne =>
      have hq : path ≠ q := fun e => hne (e ▸ hk)
      show ((s.attached.erase path).get? q).isSome = true
      rw [Table.get?_erase, if_neg hq]
      exact h.attached k q hk

/-- The tables agree after each event that a watcher hears. -/
theorem hear (w : Watcher) (events : List ResourceEvent) :
    ∀ {s : Subscriptions}, s.Consistent → (Subscriptions.hear w events s).2.Consistent := by
  induction events with
  | nil => exact fun h => h
  | cons event rest ih =>
    intro s h
    cases event with
    | changed type? => exact ih (h.change w.path type?)
    | removed =>
      have hclosed := (h.detach w.path w.listener).modifyResource w.resource fun r =>
        { r with listeners := r.listeners.close w.listener }
      exact hclosed.congr rfl (fun _ => rfl) fun _ => id

/-- The tables agree after all watchers heard of their events. -/
theorem hearAll (watchers : List Watcher) :
    ∀ {s : Subscriptions}, s.Consistent → (Subscriptions.hearAll watchers s).2.Consistent := by
  induction watchers with
  | nil => exact fun h => h
  | cons w rest ih => exact fun h => ih (hear w _ (h.modifyResource _ _))

/-- What happens to a resource leaves the tables in agreement. -/
theorem announce (h : s.Consistent) (id : ResourceId) (event : ResourceEvent) :
    (s.announce id event).2.Consistent :=
  hearAll _ (h.modifyResource _ _)

end Consistent

/-! ## Histories -/

/-- What can happen to the subscriptions. -/
inductive Event
  | add (r : Resource)
  | attach (path : String) (id : ResourceId)
  | receive (peer : Endpoint) (m : Message)
  | send (peer : Endpoint) (m : Message) (request? : Option Message)
  | settle (event : ExchangeEvent)
  | recordId (key : ConversationKey) (id : MessageId)
  /-- A resource is changed or rendered by others, or tells its listeners something that they
  have not taken out of their inboxes yet. -/
  | modify (id : ResourceId) (f : Resource → Resource)
  /-- A resource tells its listeners something, and they hear it at once. -/
  | announce (id : ResourceId) (event : ResourceEvent)
  /-- A watcher hears what a resource has told it before. -/
  | hear (w : Watcher) (event : ResourceEvent)

/-- The subscriptions after an event. -/
def step (s : Subscriptions) : Event → Subscriptions
  | .add r => (s.addResource r).2
  | .attach path id => s.attach path id
  | .receive peer m => (s.receive peer m).2
  | .send peer m request? => (s.send peer m request?).2
  | .settle event => s.settle event
  | .recordId key id => s.recordId key id
  | .modify id f => s.modifyResource id f
  | .announce id event => (s.announce id event).2
  | .hear w event => (hear w [event] s).2

/-- The subscriptions after a history. -/
def run (s : Subscriptions) : List Event → Subscriptions
  | [] => s
  | event :: rest => run (s.step event) rest

/-- The tables agree after every event. -/
theorem Consistent.step (h : s.Consistent) (event : Event) : (s.step event).Consistent := by
  cases event with
  | add r => exact h.addResource r
  | attach path id => exact h.attach path id
  | receive peer m => exact h.receive peer m
  | send peer m request? => exact h.send peer m request?
  | settle event => exact h.settle event
  | recordId key id => exact h.recordId key id
  | modify id f => exact h.modifyResource id f
  | announce id event => exact h.announce id event
  | hear w event => exact Consistent.hear w [event] h

/-- They agree throughout. -/
theorem Consistent.run (h : s.Consistent) (events : List Event) : (s.run events).Consistent := by
  induction events generalizing s with
  | nil => exact h
  | cons event rest ih => exact ih (h.step event)

/-- **The index is consistent.**  After every history, whatever numbers are drawn: a key is
listed at a path exactly if there is a subscription under the key to that path; no path has an
empty list, and none lists a key twice; a key with a subscription is listed at exactly one
path; and something is attached at the path of every subscription. -/
theorem listed_iff_subscribed (firstNumbers : Draws SequenceNumber) (events : List Event) :
    let s := run { firstNumbers } events
    (∀ path key, (∃ keys, s.byPath.get? path = some keys ∧ key ∈ keys) ↔
      ∃ x, s.entries.get? key = some x ∧ x.path = path) ∧
    (∀ path keys, s.byPath.get? path = some keys → keys ≠ [] ∧ keys.Nodup) ∧
    ∀ key x, s.entries.get? key = some x →
      (∃ path keys, s.byPath.get? path = some keys ∧ key ∈ keys ∧
        ∀ other others, s.byPath.get? other = some others → key ∈ others → other = path) ∧
      s.attached.contains x.path = true := by
  intro s
  have h : s.Consistent := (Consistent.empty firstNumbers).run events
  have hlisted (path : String) (key : ConversationKey) :
      (∃ keys, s.byPath.get? path = some keys ∧ key ∈ keys) ↔
        ∃ x, s.entries.get? key = some x ∧ x.path = path := by
    rw [← mem_keysAt_iff, h.listed, path?_eq_some_iff]
  refine ⟨hlisted, fun path keys hkeys => ⟨?_, ?_⟩, fun key x hx => ⟨?_, ?_⟩⟩
  · rintro rfl
    exact h.noneEmpty path hkeys
  · have hnodup := h.nodup path
    simpa [keysAt, hkeys] using hnodup
  · obtain ⟨keys, hkeys, hkey⟩ := (hlisted x.path key).2 ⟨x, hx, rfl⟩
    refine ⟨x.path, keys, hkeys, hkey, fun other others hothers hmem => ?_⟩
    obtain ⟨y, hy, rfl⟩ := (hlisted other key).1 ⟨others, hothers, hmem⟩
    rw [Option.some.inj (hx.symm.trans hy)]
  · exact h.attached key x.path (path?_eq_some_iff.2 ⟨x, hx, rfl⟩)

end Coap.Subscriptions
