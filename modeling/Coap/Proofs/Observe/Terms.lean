/-
# The terms of a subscription

The terms of a subscription are what does not change with every notification.  For each change of
the subscriptions there is one equation here: it says which terms stand under a key afterwards.
Terms are lost where something is heard of their path that costs them.
-/
import Coap.Proofs.Observe.Addressed
import Coap.Proofs.Observe.Histories

namespace Coap

/-- What of a subscription does not change with every notification: the path, the known
representations and the format from the request, and the ID of the latest notification. -/
structure Terms where
  path : String
  etags : List Bytes
  accept? : Option UInt16
  lastId? : Option MessageId

/-- The terms of a subscription. -/
def Subscription.terms (x : Subscription) : Terms := ⟨x.path, x.etags, x.accept?, x.lastId?⟩

/-- The terms that a request to observe asks for, no notification having been sent yet. -/
def Terms.ofRequest (request : Message) : Terms :=
  ⟨Path.normalize request.uriPath, request.etags, request.accept?, none⟩

/-- An ID is recorded, if there is one. -/
def Terms.note (x : Terms) (id? : Option MessageId) : Terms :=
  { x with lastId? := id?.or x.lastId? }

/-- An entry is modified at its key. -/
theorem Table.get?_modify {κ ν : Type} [DecidableEq κ] (t : Table κ ν) (k k' : κ) (f : ν → ν) :
    (t.modify k f).get? k' = if k = k' then (t.get? k').map f else t.get? k' := by
  unfold modify
  split
  · next v hv =>
    rw [get?_insert]
    split
    · next heq =>
      rw [← heq, hv]
      rfl
    · rfl
  · next hnone =>
    split
    · next heq =>
      rw [← heq, hnone]
      rfl
    · rfl

namespace Subscriptions

variable {s s' : Subscriptions} {key other : ConversationKey} {x : Terms} {path : String}
  {id : ResourceId} {peer : Endpoint} {m request : Message}

/-- The terms of the subscription under a key. -/
def terms? (s : Subscriptions) (key : ConversationKey) : Option Terms :=
  (s.entries.get? key).map Subscription.terms

/-- Terms are those of the entry. -/
theorem terms?_congr (h : s'.entries.get? key = s.entries.get? key) :
    s'.terms? key = s.terms? key :=
  congrArg (Option.map Subscription.terms) h

/-- An entry has its terms. -/
theorem terms?_of_get? {y : Subscription} (h : s.entries.get? key = some y) :
    s.terms? key = some y.terms :=
  congrArg (Option.map Subscription.terms) h

/-- Where there are terms, there is an entry. -/
theorem exists_of_terms? (h : s.terms? key = some x) :
    ∃ y, s.entries.get? key = some y ∧ y.terms = x :=
  Option.map_eq_some_iff.mp h

/-- The path is one of the terms. -/
theorem path?_eq (s : Subscriptions) (key : ConversationKey) :
    s.path? key = (s.terms? key).map (·.path) := by
  rw [path?, terms?, Option.map_map]
  rfl

/-- The path can be read from the terms. -/
theorem path?_of_terms? (h : s.terms? key = some x) : s.path? key = some x.path := by
  rw [path?_eq, h]
  rfl

/-! ## Entries of one key -/

/-- A removed entry is not there, and the others are. -/
theorem get?_remove_eq (s : Subscriptions) (other key : ConversationKey) :
    (s.remove other).entries.get? key = if other = key then none else s.entries.get? key := by
  unfold remove
  split
  · next hnone =>
    split
    · next heq => rw [← heq, hnone]
    · rfl
  · rw [entries_unindex]
    exact Table.get?_erase ..

/-- Its terms are gone as well. -/
theorem terms?_remove (s : Subscriptions) (other key : ConversationKey) :
    (s.remove other).terms? key = if other = key then none else s.terms? key := by
  rw [terms?, get?_remove_eq]
  split <;> rfl

/-- A registration makes an entry with the first number, and leaves the others. -/
theorem get?_register_eq (s : Subscriptions) (other key : ConversationKey) (path : String)
    (request : Message) :
    (s.register other path request).2.entries.get? key =
      if other = key then some ⟨path, request.etags, request.accept?, s.firstNumbers.next.1, none⟩
      else s.entries.get? key := by
  rw [← Table.get?_insert]
  unfold register index
  simp only
  split
  · split
    · rfl
    · rw [entries_unindex]
  · rfl

/-- Its terms are those of the request. -/
theorem terms?_register (s : Subscriptions) (other key : ConversationKey) (request : Message) :
    (s.register other (Path.normalize request.uriPath) request).2.terms? key =
      if other = key then some (.ofRequest request) else s.terms? key := by
  rw [terms?, get?_register_eq]
  split <;> rfl

/-- An ID is noted in the terms of its subscription. -/
theorem terms?_recordId (s : Subscriptions) (other key : ConversationKey) (id : MessageId) :
    (s.recordId other id).terms? key =
      if other = key then (s.terms? key).map (·.note (some id)) else s.terms? key := by
  have hget : (s.recordId other id).entries.get? key =
      if other = key then (s.entries.get? key).map fun x => { x with lastId? := some id }
      else s.entries.get? key :=
    Table.get?_modify ..
  rw [terms?, hget]
  split
  · rw [terms?, Option.map_map, Option.map_map]
    rfl
  · rfl

/-! ## Changes -/

/-- A resource cannot be rendered for those who observe it at a path in a format. -/
def FailsToRender (s : Subscriptions) (path : String) (accept? : Option UInt16) : Prop :=
  ∃ id, s.attached.get? path = some id ∧ ∃ f, (s.render id accept?).1 = .error f

/-- A resource is rendered by its state, and a missing one as a failure. -/
theorem render_fst (s : Subscriptions) (id : ResourceId) (accept? : Option UInt16) :
    (s.render id accept?).1 =
      match s.resources[id]? with
      | some r => r.state accept?
      | none => .error .notFound := by
  unfold render
  split <;> simp_all [Resource.render]

/-- Rendering depends on the resources only. -/
theorem render_congr_fst (h : s'.resources = s.resources) (id : ResourceId)
    (accept? : Option UInt16) : (s'.render id accept?).1 = (s.render id accept?).1 := by
  rw [render_fst, render_fst, h]

/-- Who keeps the state of a resource keeps how all resources are rendered. -/
theorem render_modifyResource_fst {f : Resource → Resource}
    (hf : ∀ r, s.resources[id]? = some r → (f r).state = r.state) (other : ResourceId)
    (accept? : Option UInt16) :
    ((s.modifyResource id f).render other accept?).1 = (s.render other accept?).1 := by
  rw [render_fst, render_fst, modifyResource, List.getElem?_modify]
  by_cases hid : id = other
  · subst hid
    cases hr : s.resources[id]? with
    | none => rfl
    | some r => simp [hf r hr]
  · simp [hid]

/-- A resource is rendered the same when it was rendered before. -/
theorem render_render_fst (s : Subscriptions) (id : ResourceId) (accept? : Option UInt16)
    (other : ResourceId) (format? : Option UInt16) :
    ((s.render id accept?).2.render other format?).1 = (s.render other format?).1 := by
  unfold render
  cases hr : s.resources[id]? with
  | none => rfl
  | some r =>
    refine render_modifyResource_fst ?_ other format?
    intro r' hr'
    cases Option.some.inj (hr.symm.trans hr')
    rfl

/-- Subscriptions end without an effect on resources. -/
theorem resources_remove (s : Subscriptions) (other : ConversationKey) :
    (s.remove other).resources = s.resources := by
  unfold remove unindex
  split
  · rfl
  · split
    · rfl
    · split <;> rfl

/-- What has been rendered before is still the state of the resource. -/
def Fresh (s : Subscriptions) (id : ResourceId) (seen : Renderings) : Prop :=
  ∀ e ∈ seen, e.2 = (s.render id e.1).1

/-- Where nothing was rendered, everything seen is fresh. -/
theorem Fresh.nil (s : Subscriptions) (id : ResourceId) : s.Fresh id [] := by
  intro e he
  exact absurd he List.not_mem_nil

/-- What was seen is fresh as long as it is rendered so. -/
theorem Fresh.congr {seen : Renderings} (h : s.Fresh id seen)
    (hrender : ∀ accept?, (s'.render id accept?).1 = (s.render id accept?).1) :
    s'.Fresh id seen := by
  intro e he
  rw [hrender, h e he]

/-- Whether it has been rendered before or not, the state is the same, and stays it. -/
theorem Fresh.renderOnce {seen : Renderings} (h : s.Fresh id seen) (accept? : Option UInt16) :
    (s.renderOnce id accept? seen).1 = (s.render id accept?).1 ∧
      (s.renderOnce id accept? seen).2.2.Fresh id (s.renderOnce id accept? seen).2.1 ∧
      ∀ format?, ((s.renderOnce id accept? seen).2.2.render id format?).1 =
        (s.render id format?).1 := by
  unfold Subscriptions.renderOnce
  split
  · next format? rendered hfound =>
    obtain rfl : format? = accept? := by simpa using List.find?_some hfound
    exact ⟨h _ (List.mem_of_find?_eq_some hfound), h, fun _ => rfl⟩
  · refine ⟨rfl, ?_, render_render_fst s id accept? id⟩
    intro e he
    rw [render_render_fst]
    rcases List.mem_append.mp he with he | he
    · exact h e he
    · rw [List.mem_singleton.mp he]

/-- An observer is told, and then the rest. -/
theorem notifyEach_cons {first : ConversationKey} {y : Subscription} (rest : List ConversationKey)
    (seen : Renderings) (hy : s.entries.get? first = some y) :
    let numbered : Subscriptions :=
      { s with entries := s.entries.insert first { y with number := y.number.next } }
    let rendered := numbered.renderOnce id y.accept? seen
    notifyEach id type (first :: rest) seen s =
      match rendered.1 with
      | .ok r =>
        let others := notifyEach id type rest rendered.2.1 rendered.2.2
        (notificationsOf first.peer
          (Notification.ofState type first.token y.number.next r y.etags) ++ others.1, others.2)
      | .error f =>
        let others := notifyEach id type rest rendered.2.1 (rendered.2.2.remove first)
        (notificationsOf first.peer (Notification.ofFailure type first.token f) ++ others.1,
          others.2) := by
  intro numbered rendered
  rw [notifyEach]
  simp only [hy]
  cases hrendered : rendered.1 <;> simp only [numbered, rendered] at hrendered ⊢

/-- The state is rendered for an observer that has been numbered on. -/
theorem renderOnce_numbered {seen : Renderings} (hfresh : s.Fresh id seen)
    (first : ConversationKey) (y : Subscription) :
    let numbered : Subscriptions :=
      { s with entries := s.entries.insert first { y with number := y.number.next } }
    let rendered := numbered.renderOnce id y.accept? seen
    rendered.1 = (s.render id y.accept?).1 ∧ rendered.2.2.Fresh id rendered.2.1 ∧
      (∀ format?, (rendered.2.2.render id format?).1 = (s.render id format?).1) ∧
      ∀ k, rendered.2.2.entries.get? k =
        if first = k then some { y with number := y.number.next } else s.entries.get? k := by
  intro numbered rendered
  have hresources : numbered.resources = s.resources := rfl
  have hkept : numbered.Fresh id seen := hfresh.congr (render_congr_fst hresources id)
  obtain ⟨hrendered, hstill, hsame⟩ := hkept.renderOnce y.accept?
  refine ⟨hrendered.trans (render_congr_fst hresources id _), hstill,
    fun format? => (hsame format?).trans (render_congr_fst hresources id format?), fun k => ?_⟩
  rw [entries_renderOnce]
  exact Table.get?_insert ..

/-- An observer that is numbered on has the terms that it had. -/
theorem terms?_of_numbered {first : ConversationKey} {y : Subscription}
    (hy : s.entries.get? first = some y)
    (hentry : ∀ k, s'.entries.get? k =
      if first = k then some { y with number := y.number.next } else s.entries.get? k)
    (k : ConversationKey) : s'.terms? k = s.terms? k := by
  rw [terms?, terms?, hentry]
  split
  · next hkey =>
    rw [← hkey, hy]
    rfl
  · rfl

/-- In its turn an observer loses its terms if the state cannot be rendered for it, and nobody else
does. -/
theorem exists_turn_terms (id : ResourceId) (type : MessageType) {first : ConversationKey}
    (rest : List ConversationKey) {seen : Renderings} (hfresh : s.Fresh id seen) :
    ∃ seen' s', (notifyEach id type (first :: rest) seen s).2 = (notifyEach id type rest seen' s').2 ∧
      s'.Fresh id seen' ∧ (∀ format?, (s'.render id format?).1 = (s.render id format?).1) ∧
      ∀ {key : ConversationKey} {x : Terms}, s'.terms? key = some x ↔
        s.terms? key = some x ∧ ¬ (key = first ∧ ∃ f, (s.render id x.accept?).1 = .error f) := by
  cases hy : s.entries.get? first with
  | none =>
    refine ⟨seen, s, ?_, hfresh, fun _ => rfl, fun {key x} => (and_iff_left_of_imp ?_).symm⟩
    · rw [notifyEach]
      simp only [hy]
    · rintro hx ⟨rfl, -⟩
      rw [terms?, hy] at hx
      cases hx
  | some y =>
    obtain ⟨hrendered, hstill, hstate, hentry⟩ := renderOnce_numbered hfresh first y
    have hterms := terms?_of_numbered hy hentry
    have hown {x : Terms} (hx : s.terms? first = some x) : y.terms = x := by
      rw [terms?, hy] at hx
      exact Option.some.inj hx
    rw [notifyEach_cons rest seen hy]
    cases hr : (Subscriptions.renderOnce _ id y.accept? seen).1 with
    | ok r =>
      refine ⟨_, _, rfl, hstill, hstate, fun {key x} => ?_⟩
      rw [hterms]
      refine (and_iff_left_of_imp ?_).symm
      -- whoever is notified of the state keeps the subscription
      rintro hx ⟨rfl, f, hf⟩
      obtain rfl := hown hx
      cases (hrendered.symm.trans hr).symm.trans hf
    | error f =>
      refine ⟨_, _, rfl, hstill.congr (render_congr_fst (resources_remove ..) id),
        fun format? => (render_congr_fst (resources_remove ..) id format?).trans (hstate format?),
        fun {key x} => ?_⟩
      rw [terms?_remove, hterms]
      by_cases hkey : first = key
      · subst hkey
        rw [if_pos rfl]
        refine iff_of_false nofun ?_
        rintro ⟨hx, hspared⟩
        obtain rfl := hown hx
        exact hspared ⟨rfl, f, hrendered.symm.trans hr⟩
      · rw [if_neg hkey]
        exact (and_iff_left fun h => hkey h.1.symm).symm

/-- A change ends the subscriptions of those for whom the state cannot be rendered. -/
theorem terms?_notifyEach (id : ResourceId) (type : MessageType) (keys : List ConversationKey) :
    ∀ {seen : Renderings} {s : Subscriptions}, s.Fresh id seen →
      ((notifyEach id type keys seen s).2.terms? key = some x ↔
        s.terms? key = some x ∧
          ¬ (key ∈ keys ∧ ∃ f, (s.render id x.accept?).1 = .error f)) := by
  induction keys with
  | nil =>
    intro seen s _
    rw [notifyEach]
    simp
  | cons first rest ih =>
    intro seen s hfresh
    obtain ⟨seen', s', heq, hfresh', hstate, hturn⟩ := exists_turn_terms id type rest hfresh
    rw [heq, ih hfresh', hturn, hstate, and_assoc, ← not_or, ← or_and_right, List.mem_cons]

/-- A change at a path ends the subscriptions to it in the formats that cannot be rendered. -/
theorem terms?_change (h : s.Consistent) (path : String) (type? : Option MessageType) :
    (s.change path type?).2.terms? key = some x ↔
      s.terms? key = some x ∧ ¬ (path = x.path ∧ s.FailsToRender x.path x.accept?) := by
  have hlisted (hx : s.terms? key = some x) : key ∈ s.keysAt path ↔ x.path = path := by
    rw [h.listed, path?_of_terms? hx, Option.some.injEq]
  unfold change
  split
  · next hnone =>
    refine ⟨fun hx => ⟨hx, ?_⟩, And.left⟩
    rintro ⟨rfl, id, hid, -⟩
    rw [hnone] at hid
    cases hid
  · next id hid =>
    rw [terms?_notifyEach id _ _ (.nil s id)]
    refine and_congr_right fun hx => not_congr ?_
    rw [show (s.byPath.get? path).getD [] = s.keysAt path from rfl, hlisted hx]
    constructor
    · rintro ⟨rfl, hfails⟩
      exact ⟨rfl, id, hid, hfails⟩
    · rintro ⟨rfl, id', hid', hfails⟩
      cases Option.some.inj (hid.symm.trans hid')
      exact ⟨rfl, hfails⟩

/-- A removal ends all subscriptions to the path. -/
theorem terms?_detach (h : s.Consistent) (path : String) (listener : ListenerId) :
    (s.detach path listener).2.terms? key = some x ↔
      s.terms? key = some x ∧ path ≠ x.path := by
  let cleared : Subscriptions :=
    { s with attached := s.attached.erase path, byPath := s.byPath.erase path }
  have hdismissed (type : MessageType) :
      (dismissEach type (s.keysAt path) cleared).2.terms? key = some x ↔
        s.terms? key = some x ∧ path ≠ x.path := by
    obtain ⟨entries, heq, hget⟩ := dismissEach_eq type (s.keysAt path) cleared
    rw [heq, terms?, hget]
    by_cases hx : s.terms? key = some x
    · have hlisted : key ∈ s.keysAt path ↔ x.path = path := by
        rw [h.listed, path?_of_terms? hx, Option.some.injEq]
      by_cases hpath : x.path = path
      · simp [hlisted.mpr hpath, hpath]
      · rw [if_neg (mt hlisted.mp hpath)]
        exact iff_of_true hx ⟨hx, Ne.symm hpath⟩
    · refine iff_of_false ?_ fun h => hx h.1
      split
      · intro hnone
        cases hnone
      · exact hx
  unfold detach
  simp only
  split
  · exact hdismissed _
  · exact hdismissed _

/-! ## What watchers hear -/

/-- A watcher hears an event of its resource. -/
structure Hearing where
  state : Subscriptions
  watcher : Watcher
  event : ResourceEvent

/-- What a watcher that is told some events hears; the removal is the last. -/
def hearings (w : Watcher) : List ResourceEvent → Subscriptions → List Hearing
  | [], _ => []
  | .changed type? :: rest, s =>
    ⟨s, w, .changed type?⟩ :: hearings w rest (s.change w.path type?).2
  | .removed :: _, s => [⟨s, w, .removed⟩]

/-- What watchers hear that take the events out of their inboxes. -/
def allHearings : List Watcher → Subscriptions → List Hearing
  | [], _ => []
  | w :: rest, s =>
    let events := match s.resources[w.resource]? with
      | some r => r.listeners.inbox w.listener
      | none => []
    let s := s.modifyResource w.resource fun r =>
      { r with listeners := (r.listeners.drain w.listener).2 }
    hearings w events s ++ allHearings rest (hear w events s).2

/-- What is heard because of an event. -/
def heard (s : Subscriptions) : Event → List Hearing
  | .announce id event =>
    allHearings (s.watchers.filter (·.resource == id))
      (s.modifyResource id fun r => { r with listeners := r.listeners.publish event })
  | .hear w event => hearings w [event] s
  | _ => []

/-- What is heard of a path costs a subscription to it: the resource is gone, or its state cannot
be rendered for the subscriber. -/
inductive Hearing.Costs (x : Terms) (h : Hearing) : Prop
  | removed : h.event = .removed → h.watcher.path = x.path → Costs x h
  | changed (type? : Option MessageType) : h.event = .changed type? → h.watcher.path = x.path →
      h.state.FailsToRender x.path x.accept? → Costs x h

/-- What a watcher hears costs a subscription its place only if one of its events does. -/
theorem terms?_hear (w : Watcher) (events : List ResourceEvent) :
    ∀ {s : Subscriptions}, s.Consistent →
      ((hear w events s).2.terms? key = some x ↔
        s.terms? key = some x ∧ ∀ h ∈ hearings w events s, ¬ h.Costs x) := by
  induction events with
  | nil =>
    intro s _
    simp [hear, hearings]
  | cons event rest ih =>
    intro s hs
    cases event with
    | changed type? =>
      rw [hearings, List.forall_mem_cons, ← and_assoc]
      refine (ih (hs.change w.path type?)).trans (and_congr_left fun _ => ?_)
      rw [terms?_change hs]
      refine and_congr_right fun _ => not_congr ⟨?_, ?_⟩
      · rintro ⟨hpath, hfails⟩
        exact .changed type? rfl hpath hfails
      · rintro (hevent | ⟨_, -, hpath, hfails⟩)
        · cases hevent
        · exact ⟨hpath, hfails⟩
    | removed =>
      rw [hearings, List.forall_mem_singleton]
      refine (terms?_detach hs w.path w.listener).trans
        (and_congr_right fun _ => not_congr ⟨?_, ?_⟩)
      · intro hpath
        exact .removed rfl hpath
      · rintro (⟨-, hpath⟩ | ⟨_, hevent, -⟩)
        · exact hpath
        · cases hevent

/-- What all watchers hear costs it only if one of their events does. -/
theorem terms?_hearAll (watchers : List Watcher) :
    ∀ {s : Subscriptions}, s.Consistent →
      ((hearAll watchers s).2.terms? key = some x ↔
        s.terms? key = some x ∧ ∀ h ∈ allHearings watchers s, ¬ h.Costs x) := by
  induction watchers with
  | nil =>
    intro s _
    simp [hearAll, allHearings]
  | cons w rest ih =>
    intro s hs
    have hdrained := hs.modifyResource w.resource fun r =>
      { r with listeners := (r.listeners.drain w.listener).2 }
    rw [allHearings, List.forall_mem_append, ← and_assoc]
    refine (ih (Consistent.hear w _ hdrained)).trans (and_congr_left fun _ => ?_)
    exact terms?_hear w _ hdrained

end Subscriptions

end Coap
