/-
# Who watches a resource

A resource is attached at a path by a watcher, which listens to it from then on.  Subscriptions come
and go, are numbered on and are told of changes, and nothing of it touches the watchers and those
they listen to.  So a resource comes to be watched only by being attached, and what nobody watches
can tell its listeners what it likes: nothing is published.
-/
import Coap.Proofs.Observe.Fanout

namespace Coap

/-! ## Listeners -/

namespace Listeners

variable {l : Listeners} {id : ListenerId} {ids : List ListenerId}

/-- A listener is registered, and has taken out all that it has been told. -/
structure Awaits (l : Listeners) (id : ListenerId) : Prop where
  registered : id ∈ l.registered
  caughtUp : l.inboxes.get? id = some []

/-- What it is told next is all that it has to take out. -/
theorem Awaits.get?_publish (h : l.Awaits id) (event : ResourceEvent) :
    (l.publish event).inboxes.get? id = some [event] := by
  have hregistered : l.registered.contains id = true := by simpa using h.registered
  rw [publish, Table.get?_mapValues, h.caughtUp, Option.map_some, if_pos hregistered]
  rfl

/-- A watcher that awaits events hears of the one that is published, and of nothing else. -/
theorem Awaits.inbox_publish (h : l.Awaits id) (event : ResourceEvent) :
    (l.publish event).inbox id = [event] := by
  rw [inbox, h.get?_publish, Option.getD_some]

/-- Whoever listens awaits events. -/
theorem awaits_listen (l : Listeners) : l.listen.2.Awaits l.listen.1 :=
  ⟨List.mem_append_right _ (List.mem_singleton_self _), Table.get?_insert_self ..⟩

/-- It goes on to do so when another one listens. -/
theorem Awaits.listen (h : l.Awaits id) (hold : id < l.nextId) : l.listen.2.Awaits id := by
  refine ⟨List.mem_append_left _ h.registered, ?_⟩
  rw [Listeners.listen, Table.get?_insert, if_neg (Nat.ne_of_gt hold), h.caughtUp]

/-- To empty an inbox puts nothing into another one. -/
theorem mem_inbox_of_drain {event : ResourceEvent} {other : ListenerId}
    (h : event ∈ (l.drain id).2.inbox other) : event ∈ l.inbox other := by
  rw [inbox, drain, Table.get?_modify] at h
  split at h
  · cases hinbox : l.inboxes.get? other <;> simp [hinbox] at h
  · exact h

/-- Several inboxes are emptied. -/
def drainEach (ids : List ListenerId) (l : Listeners) : Listeners :=
  ids.foldl (fun l id => (l.drain id).2) l

/-- Inboxes are emptied one by one, each of them at most once. -/
theorem drainEach_eq (ids : List ListenerId) (l : Listeners) :
    ∃ inboxes, l.drainEach ids = { l with inboxes } ∧ ∀ k, inboxes.get? k =
      if k ∈ ids then (l.inboxes.get? k).map fun _ => [] else l.inboxes.get? k := by
  induction ids generalizing l with
  | nil => exact ⟨l.inboxes, rfl, fun k => rfl⟩
  | cons id rest ih =>
    obtain ⟨inboxes, heq, hget⟩ := ih (l.drain id).2
    refine ⟨inboxes, heq, fun k => ?_⟩
    rw [hget, drain, Table.get?_modify]
    by_cases hk : k = id
    · subst hk
      cases l.inboxes.get? k <;> simp
    · simp [hk, Ne.symm hk]

/-- Who has been told an event and takes it out has heard all that it has been told. -/
theorem Awaits.publish_drainEach (h : l.Awaits id) (event : ResourceEvent) (hid : id ∈ ids) :
    ((l.publish event).drainEach ids).Awaits id := by
  obtain ⟨inboxes, heq, hget⟩ := (l.publish event).drainEach_eq ids
  rw [heq]
  constructor
  · refine List.mem_filter.mpr ⟨h.registered, ?_⟩
    rw [Table.contains, h.caughtUp]
    rfl
  · rw [hget, if_pos hid, h.get?_publish]
    rfl

end Listeners

namespace Subscriptions

variable {s s' s'' : Subscriptions} {w : Watcher} {id : ResourceId}

/-- The listeners of a resource. -/
def listeners? (s : Subscriptions) (id : ResourceId) : Option Listeners :=
  (s.resources[id]?).map (·.listeners)

/-- The listeners of a resource change with the resource only. -/
theorem listeners?_modifyResource {f : Resource → Resource} {g : Listeners → Listeners}
    (hf : ∀ r, (f r).listeners = g r.listeners) (s : Subscriptions) (id other : ResourceId) :
    (s.modifyResource id f).listeners? other =
      if id = other then (s.listeners? other).map g else s.listeners? other := by
  unfold listeners? modifyResource
  rw [List.getElem?_modify]
  by_cases hid : id = other
  · cases s.resources[other]? with
    | none => simp
    | some r => simp [hid, hf]
  · simp [hid]

/-- A resource tells its listeners an event. -/
def tell (s : Subscriptions) (id : ResourceId) (event : ResourceEvent) : Subscriptions :=
  s.modifyResource id fun r => { r with listeners := r.listeners.publish event }

/-- The listeners of a resource change when it is told of an event. -/
theorem listeners?_tell (s : Subscriptions) (id other : ResourceId) (event : ResourceEvent) :
    (s.tell id event).listeners? other =
      if id = other then (s.listeners? other).map (·.publish event) else s.listeners? other :=
  listeners?_modifyResource (fun _ => rfl) ..

/-- A watcher takes what it has been told out of its inbox. -/
def drain (s : Subscriptions) (w : Watcher) : Subscriptions :=
  s.modifyResource w.resource fun r => { r with listeners := (r.listeners.drain w.listener).2 }

/-- The listeners of a resource change when an inbox is emptied. -/
theorem listeners?_drain (s : Subscriptions) (w : Watcher) (other : ResourceId) :
    (s.drain w).listeners? other =
      if w.resource = other then (s.listeners? other).map fun l => (l.drain w.listener).2
      else s.listeners? other :=
  listeners?_modifyResource (fun _ => rfl) ..

/-- What a resource announces is told, and then heard by one watcher after the other. -/
theorem announce_eq (s : Subscriptions) (id : ResourceId) (event : ResourceEvent) :
    s.announce id event = hearAll (s.watchers.filter (·.resource == id)) (s.tell id event) := rfl

/-- The first watcher hears what is in its inbox, and then come the others. -/
theorem hearAll_cons (rest : List Watcher) {r : Resource} (hr : s.resources[w.resource]? = some r) :
    hearAll (w :: rest) s =
      let first := hear w (r.listeners.inbox w.listener) (s.drain w)
      let others := hearAll rest first.2
      (first.1 ++ others.1, others.2) := by
  rw [hearAll]
  simp only [hr]
  rfl

/-! ## What does not touch the watchers -/

/-- What is attached where, who watches it and who listens to it, is as it was. -/
structure SameWiring (s s' : Subscriptions) : Prop where
  watchers : s'.watchers = s.watchers
  attached : s'.attached = s.attached
  listeners : ∀ id, s'.listeners? id = s.listeners? id

namespace SameWiring

/-- What stays the same is wired the same. -/
theorem refl (s : Subscriptions) : s.SameWiring s := ⟨rfl, rfl, fun _ => rfl⟩

/-- Wirings that are the same as a third one are the same. -/
theorem trans (h : s.SameWiring s') (h' : s'.SameWiring s'') : s.SameWiring s'' :=
  ⟨h'.watchers.trans h.watchers, h'.attached.trans h.attached,
    fun id => (h'.listeners id).trans (h.listeners id)⟩

/-- A resource may change without its listeners. -/
theorem modifyResource (s : Subscriptions) (id : ResourceId) {f : Resource → Resource}
    (hf : ∀ r, (f r).listeners = r.listeners) : s.SameWiring (s.modifyResource id f) := by
  refine ⟨rfl, rfl, fun other => ?_⟩
  rw [listeners?_modifyResource (g := fun l => l) hf, Option.map_id', ite_self]

/-- The index is no part of the wiring. -/
theorem unindex (s : Subscriptions) (path : String) (key : ConversationKey) :
    s.SameWiring (s.unindex path key) := by
  obtain ⟨byPath, heq, -⟩ := s.unindex_eq path key
  rw [heq]
  exact ⟨rfl, rfl, fun _ => rfl⟩

/-- A subscription may be removed without wiring anything anew. -/
theorem remove (s : Subscriptions) (key : ConversationKey) : s.SameWiring (s.remove key) := by
  unfold Subscriptions.remove
  split
  · exact refl s
  · next x _ =>
    have hleft := unindex { s with entries := s.entries.erase key } x.path key
    exact ⟨hleft.watchers, hleft.attached, hleft.listeners⟩

/-- A subscription may be added without wiring anything anew. -/
theorem register (s : Subscriptions) (key : ConversationKey) (path : String) (request : Message) :
    s.SameWiring (s.register key path request).2 := by
  let entered : Subscriptions :=
    { s with
      firstNumbers := s.firstNumbers.next.2
      entries := s.entries.insert key
        ⟨path, request.etags, request.accept?, s.firstNumbers.next.1, none⟩ }
  unfold Subscriptions.register index
  simp only
  split
  · next previous _ =>
    split
    · exact ⟨rfl, rfl, fun _ => rfl⟩
    · have hleft := unindex entered previous.path key
      exact ⟨hleft.watchers, hleft.attached, hleft.listeners⟩
  · exact ⟨rfl, rfl, fun _ => rfl⟩

/-- Those who are told of a change are not wired anew. -/
theorem notifyEach (id : ResourceId) (type : MessageType) (keys : List ConversationKey)
    (seen : Renderings) (s : Subscriptions) :
    s.SameWiring (Subscriptions.notifyEach id type keys seen s).2 := by
  induction keys generalizing seen s with
  | nil => exact refl s
  | cons first rest ih =>
    cases hx : s.entries.get? first with
    | none =>
      rw [Subscriptions.notifyEach]
      simp only [hx]
      exact ih seen s
    | some x =>
      obtain ⟨_, seen', s', hturn, heq⟩ := exists_turn id type rest seen hx
      rw [heq]
      refine trans ⟨hturn.watchers, hturn.attached, fun other => ?_⟩ (ih seen' s')
      -- the state may have been rendered, and that is all
      rcases hturn.renders with ⟨-, -, hsame⟩ | ⟨-, -, hrendered⟩
      · rw [listeners?, hsame, listeners?]
      · rw [listeners?, hrendered]
        exact (modifyResource s id (f := Resource.rendered 1) fun _ => rfl).listeners other

/-- Neither are the observers of a path that changes. -/
theorem change (s : Subscriptions) (path : String) (type? : Option MessageType) :
    s.SameWiring (s.change path type?).2 := by
  unfold Subscriptions.change
  split
  · exact refl s
  · exact notifyEach ..

/-- Unless a watcher hears of a removal, it goes on to listen. -/
theorem hear (w : Watcher) (events : List ResourceEvent) (hnot : .removed ∉ events) :
    ∀ s : Subscriptions, s.SameWiring (Subscriptions.hear w events s).2 := by
  induction events with
  | nil => exact refl
  | cons event rest ih =>
    intro s
    cases event with
    | changed type? =>
      refine (change s w.path type?).trans (ih (fun hmem => ?_) _)
      exact hnot (List.mem_cons_of_mem _ hmem)
    | removed => exact absurd List.mem_cons_self hnot

/-- Messages that come in leave the wiring alone. -/
theorem receive (s : Subscriptions) (peer : Endpoint) (m : Message) :
    s.SameWiring (s.receive peer m).2 := by
  unfold Subscriptions.receive
  split
  · split
    · exact remove ..
    · exact refl s
  · split
    · exact remove ..
    · exact refl s

/-- Messages that go out leave the wiring alone. -/
theorem send (s : Subscriptions) (peer : Endpoint) (m : Message) (request? : Option Message) :
    s.SameWiring (s.send peer m request?).2 := by
  unfold Subscriptions.send
  split
  · exact refl s
  · split
    · simp only
      split
      · split <;> exact register ..
      · exact remove ..
    · exact refl s

/-- Exchanges that come to an end leave the wiring alone. -/
theorem settle (s : Subscriptions) (event : ExchangeEvent) : s.SameWiring (s.settle event) := by
  unfold Subscriptions.settle
  split
  · exact refl s
  · simp only
    split
    · split
      · exact remove ..
      · exact refl s
    · exact refl s

end SameWiring

/-! ## Watchers that hear of changes -/

/-- **Watchers that hear nothing of a removal** take the events out of their inboxes, and go on to
listen. -/
theorem wiring_hearAll (ws : List Watcher) :
    ∀ {s : Subscriptions} {l : Listeners}, s.listeners? id = some l →
      (∀ w ∈ ws, w.resource = id ∧ .removed ∉ l.inbox w.listener) →
      (hearAll ws s).2.watchers = s.watchers ∧ (hearAll ws s).2.attached = s.attached ∧
        ∀ other, (hearAll ws s).2.listeners? other =
          if id = other then some (l.drainEach (ws.map (·.listener))) else s.listeners? other := by
  induction ws with
  | nil =>
    intro s l hl _
    refine ⟨rfl, rfl, fun other => ?_⟩
    split
    · next hid => exact hid ▸ hl
    · rfl
  | cons w rest ih =>
    intro s l hl hchanges
    obtain ⟨rfl, hnot⟩ := hchanges w List.mem_cons_self
    obtain ⟨r, hr, rfl⟩ := Option.map_eq_some_iff.mp hl
    have hheard := SameWiring.hear w _ hnot (s.drain w)
    have hl' := (hheard.listeners w.resource).trans (s.listeners?_drain w w.resource)
    rw [if_pos rfl, hl, Option.map_some] at hl'
    obtain ⟨hwatchers, hattached, hlisteners⟩ := ih hl' fun w' hw' => by
      obtain ⟨hid, hnot'⟩ := hchanges w' (List.mem_cons_of_mem _ hw')
      exact ⟨hid, fun hmem => hnot' (Listeners.mem_inbox_of_drain hmem)⟩
    rw [hearAll_cons rest hr]
    refine ⟨hwatchers.trans hheard.watchers, hattached.trans hheard.attached, fun other => ?_⟩
    rw [hlisteners]
    split
    · rfl
    · next hother => rw [hheard.listeners, listeners?_drain, if_neg hother]

/-! ## Histories of watchers -/

/-- What is left when a path has been detached, but for the entries of those who observed it. -/
theorem left_detach (s : Subscriptions) (path : String) (listener : ListenerId) :
    let left := (s.detach path listener).2
    left.attached = s.attached.erase path ∧ left.byPath = s.byPath.erase path ∧
      left.watchers = s.watchers ∧
      left.resources = match s.attached.get? path with
        | some id => s.resources.modify id fun r =>
          { r with listeners := r.listeners.unregister listener }
        | none => s.resources := by
  obtain ⟨entries, heq, -⟩ := dismissEach_eq (s.usualType path) (s.keysAt path)
    { s with attached := s.attached.erase path, byPath := s.byPath.erase path }
  simp only [detach_eq, heq]
  cases s.attached.get? path with
  | none => exact ⟨rfl, rfl, rfl, rfl⟩
  | some id => exact ⟨rfl, rfl, rfl, rfl⟩

/-- A watcher may go when it hears of the end of its resource, and none comes. -/
theorem watchers_hear_sublist (w : Watcher) (events : List ResourceEvent) :
    ∀ s : Subscriptions, (hear w events s).2.watchers.Sublist s.watchers := by
  induction events with
  | nil => exact fun s => .refl _
  | cons event rest ih =>
    intro s
    cases event with
    | changed type? =>
      have hrest := ih (s.change w.path type?).2
      rwa [(SameWiring.change s w.path type?).watchers] at hrest
    | removed =>
      have hrest : (hear w (.removed :: rest) s).2.watchers.Sublist
          (s.detach w.path w.listener).2.watchers := List.filter_sublist
      rwa [(left_detach s w.path w.listener).2.2.1] at hrest

/-- The same is true of all watchers. -/
theorem watchers_hearAll_sublist (ws : List Watcher) (s : Subscriptions) :
    (hearAll ws s).2.watchers.Sublist s.watchers := by
  induction ws generalizing s with
  | nil => exact .refl _
  | cons w rest ih =>
    unfold hearAll
    exact (ih _).trans (watchers_hear_sublist w _ (s.drain w))

/-- What nobody watches can announce what it likes. -/
theorem announce_unwatched (hnone : ∀ w ∈ s.watchers, w.resource ≠ id) (event : ResourceEvent) :
    s.announce id event = ([], s.tell id event) := by
  have hnobody : s.watchers.filter (·.resource == id) = [] :=
    List.filter_eq_nil_iff.mpr fun w hw => by simpa using hnone w hw
  rw [announce_eq, hnobody, hearAll]

end Subscriptions

end Coap
