/-
# Tearing down the paths of a resource

A resource tells its listeners that it is gone, and that is the last thing they hear.  Each
watcher tears down the path it watches: the path is no longer attached, those who observe it lose
their subscriptions and are told so, and the watcher stops listening.  A resource may be attached
at many paths; then its watchers tear them down one after the other, and none of them is in the
way of the next.  Paths that are not watched for the resource are not touched.
-/
import Coap.Proofs.Observe.Watching

namespace Coap

/-- A resource is as it was, but for listeners that it may have lost. -/
structure Resource.Loses (r r' : Resource) : Prop where
  state : r'.state = r.state
  confirmable : r'.confirmable = r.confirmable
  renders : r'.renders = r.renders
  registered : ∀ l ∈ r'.listeners.registered, l ∈ r.listeners.registered
  closed : ∀ l, r.listeners.inboxes.get? l = none → r'.listeners.inboxes.get? l = none

namespace Resource.Loses

variable {r r' r'' : Resource}

/-- A resource that stays the same loses nothing. -/
theorem refl (r : Resource) : r.Loses r := ⟨rfl, rfl, rfl, fun _ => id, fun _ => id⟩

/-- What is lost in two steps is lost in both. -/
theorem trans (h : r.Loses r') (h' : r'.Loses r'') : r.Loses r'' where
  state := h'.state.trans h.state
  confirmable := h'.confirmable.trans h.confirmable
  renders := h'.renders.trans h.renders
  registered l hl := h.registered l (h'.registered l hl)
  closed l hl := h'.closed l (h.closed l hl)

/-- Telling its listeners an event, a resource drops those that it finds closed. -/
theorem publish (r : Resource) (event : ResourceEvent) :
    r.Loses { r with listeners := r.listeners.publish event } := by
  refine ⟨rfl, rfl, rfl, fun l hl => List.mem_of_mem_filter hl, fun l hl => ?_⟩
  rw [Listeners.publish, Table.get?_mapValues, hl, Option.map_none]

/-- It is not the type of notifications that is lost. -/
theorem notificationType_eq (h : r.Loses r') : r'.notificationType = r.notificationType := by
  rw [notificationType, h.confirmable, notificationType]

end Resource.Loses

namespace Subscriptions

variable {s : Subscriptions} {w : Watcher} {rest ws : List Watcher} {r r₁ : Resource}
  {id : ResourceId} {key : ConversationKey} {x : Subscription} {path : String}

/-! ## One watcher hears of it -/

/-- A watcher takes the removal out of its inbox and hears it. -/
def tearDown (w : Watcher) (s : Subscriptions) : List Notification × Subscriptions :=
  hear w [.removed] (s.drain w)

/-- The path of the watcher is taken out of all tables, and the watcher with it. -/
theorem tables_tearDown (w : Watcher) (s : Subscriptions) :
    (tearDown w s).2.attached = s.attached.erase w.path ∧
      (tearDown w s).2.byPath = s.byPath.erase w.path ∧
      (tearDown w s).2.watchers = s.watchers.filter (· != w) := by
  obtain ⟨hattached, hbyPath, hwatchers, -⟩ := left_detach (s.drain w) w.path w.listener
  exact ⟨hattached, hbyPath, congrArg (List.filter (· != w)) hwatchers⟩

/-- The listeners of a resource after a watcher of it has heard of the removal.  The listener of
the watcher is closed, and unregistered if it is this resource that was attached. -/
def listenersLeft (s : Subscriptions) (w : Watcher) (l : Listeners) : Listeners :=
  let drained := (l.drain w.listener).2
  if s.attached.get? w.path = some w.resource then
    (drained.unregister w.listener).close w.listener
  else drained.close w.listener

/-- The listener is unregistered at the resource that is attached to the path, and closed at its
own. -/
theorem resources_tearDown (w : Watcher) (s : Subscriptions) (id : ResourceId) :
    (tearDown w s).2.resources[id]? =
      let left := match s.attached.get? w.path with
        | some id => (s.drain w).resources.modify id fun r =>
          { r with listeners := r.listeners.unregister w.listener }
        | none => (s.drain w).resources
      (left.modify w.resource fun r =>
        { r with listeners := r.listeners.close w.listener })[id]? := by
  obtain ⟨-, -, -, hresources⟩ := left_detach (s.drain w) w.path w.listener
  have hleft : (tearDown w s).2.resources = List.modify _ w.resource _ :=
    congrArg (List.modify · w.resource _) hresources
  rw [hleft]
  rfl

/-- The resource that is watched stays as it is, but for the listener. -/
theorem resource_tearDown (hr : s.resources[w.resource]? = some r) :
    (tearDown w s).2.resources[w.resource]? =
      some { r with listeners := s.listenersLeft w r.listeners } := by
  rw [resources_tearDown]
  simp only [List.getElem?_modify_eq, drain, modifyResource, listenersLeft]
  split
  · next id hid =>
    rw [hid, List.getElem?_modify, List.getElem?_modify_eq, hr]
    by_cases hsame : id = w.resource
    · simp [hsame]
    · simp [hsame]
  · next hnone =>
    rw [hnone, List.getElem?_modify_eq, hr]
    simp

/-- Other resources do not notice, unless it is one of them that was attached. -/
theorem resource_tearDown_ne (hattached : ∀ i, s.attached.get? w.path = some i → i = w.resource)
    (hother : id ≠ w.resource) : (tearDown w s).2.resources[id]? = s.resources[id]? := by
  have hsame (f : Resource → Resource) (resources : List Resource) :
      (resources.modify w.resource f)[id]? = resources[id]? :=
    List.getElem?_modify_ne f resources hother.symm
  rw [resources_tearDown]
  simp only [drain, modifyResource, hsame]
  split
  · next i hi => rw [hattached i hi, hsame, hsame]
  · exact hsame _ _

/-- So it loses listeners only. -/
theorem loses_listenersLeft (s : Subscriptions) (w : Watcher) (r : Resource) :
    r.Loses { r with listeners := s.listenersLeft w r.listeners } := by
  refine ⟨rfl, rfl, rfl, fun l hl => ?_, fun l hl => ?_⟩
  · simp only [listenersLeft] at hl
    split at hl
    · exact List.mem_of_mem_filter hl
    · exact hl
  · have hclosed : (((r.listeners.drain w.listener).2.close w.listener).inboxes).get? l = none := by
      simp only [Listeners.close, Listeners.drain, Table.get?_erase, Table.get?_modify, hl]
      simp
    simp only [listenersLeft]
    split <;> exact hclosed

/-- The inboxes of other listeners stay. -/
theorem inbox_listenersLeft (s : Subscriptions) (w : Watcher) (l : Listeners) {other : ListenerId}
    (hother : w.listener ≠ other) : (s.listenersLeft w l).inbox other = l.inbox other := by
  have hsame : ((l.drain w.listener).2.close w.listener).inbox other = l.inbox other := by
    simp only [Listeners.inbox, Listeners.close, Listeners.drain, Table.get?_erase,
      Table.get?_modify, if_neg hother]
  simp only [listenersLeft]
  split <;> exact hsame

/-- The inbox of the watcher is closed. -/
theorem closed_listenersLeft (s : Subscriptions) (w : Watcher) (l : Listeners) :
    (s.listenersLeft w l).inboxes.get? w.listener = none := by
  have hclosed (l : Listeners) : (l.close w.listener).inboxes.get? w.listener = none :=
    (Table.get?_erase ..).trans (if_pos rfl)
  simp only [listenersLeft]
  split <;> exact hclosed _

/-- The watcher is not registered any more, if its path was that of the resource. -/
theorem not_registered_listenersLeft (hattached : s.attached.get? w.path = some w.resource)
    (l : Listeners) : w.listener ∉ (s.listenersLeft w l).registered := by
  rw [listenersLeft, if_pos hattached]
  simp [Listeners.close, Listeners.unregister]

/-- A watcher that hears of the removal ends the subscriptions to its path, and no others. -/
theorem seenFrom_tearDown (h : s.Consistent) (hx : s.entries.get? key = some x) (w : Watcher) :
    (w.path ≠ x.path → seenFrom key (tearDown w s) = (some x, [])) ∧
      (w.path = x.path → s.attached.get? x.path = some w.resource →
        ∀ r, s.resources[w.resource]? = some r → seenFrom key (tearDown w s) =
          (none, notificationsOf key.peer
            (Notification.ofRemoval r.notificationType key.token))) := by
  have hseen : seenFrom key (tearDown w s) = _ :=
    seenFrom_detach (h.modifyResource w.resource _) (s := s.drain w) hx w.path w.listener
  refine ⟨fun hpath => hseen.trans (if_neg hpath), fun hpath hid r hr => ?_⟩
  have hdrained : (s.drain w).resources[w.resource]? =
      some { r with listeners := (r.listeners.drain w.listener).2 } := by
    rw [drain, modifyResource, List.getElem?_modify_eq, hr]
    rfl
  rw [hseen, if_pos hpath, hpath, usualType_eq (s := s.drain w) hid hdrained]
  rfl

/-! ## All watchers hear of it -/

/-- What is left of a resource and its paths when watchers of it have heard of its removal: the
watchers are gone, and so is all that belongs to their paths. -/
structure Removed (id : ResourceId) (r : Resource) (ws : List Watcher) (s : Subscriptions)
    (result : List Notification × Subscriptions) : Prop where
  watchers : ∀ w, w ∈ result.2.watchers ↔ w ∈ s.watchers ∧ w ∉ ws
  attached : ∀ q, result.2.attached.get? q =
    if q ∈ ws.map (·.path) then none else s.attached.get? q
  byPath : ∀ q, result.2.byPath.get? q = if q ∈ ws.map (·.path) then none else s.byPath.get? q
  told : ∀ key x, s.entries.get? key = some x → x.path ∈ ws.map (·.path) →
    s.attached.get? x.path = some id → seenFrom key result =
      (none, notificationsOf key.peer (Notification.ofRemoval r.notificationType key.token))
  spared : ∀ key x, s.entries.get? key = some x → x.path ∉ ws.map (·.path) →
    seenFrom key result = (some x, [])
  resource : ∃ r', result.2.resources[id]? = some r' ∧ r.Loses r' ∧
    ∀ w ∈ ws, r'.listeners.inboxes.get? w.listener = none ∧
      (s.attached.get? w.path = some id → (∀ w' ∈ ws, w'.path = w.path → w' = w) →
        w.listener ∉ r'.listeners.registered)
  others : (∀ w ∈ ws, ∀ i, s.attached.get? w.path = some i → i = id) →
    ∀ i, i ≠ id → result.2.resources[i]? = s.resources[i]?

/-- If nobody watches, nothing is removed. -/
theorem Removed.nil (hr : s.resources[id]? = some r) : Removed id r [] s ([], s) where
  watchers w := by simp
  attached q := rfl
  byPath q := rfl
  told _ _ _ hmem := absurd hmem List.not_mem_nil
  spared key x hx _ := by
    rw [seenFrom, hx]
    rfl
  resource := ⟨r, hr, .refl r, fun _ hw => absurd hw List.not_mem_nil⟩
  others _ _ _ := rfl

/-- One watcher hears of it. -/
theorem removed_tearDown (h : s.Consistent) (hr : s.resources[w.resource]? = some r) :
    Removed w.resource r [w] s (tearDown w s) := by
  obtain ⟨hattached, hbyPath, hwatchers⟩ := tables_tearDown w s
  have hmem (q : String) : q ∈ [w].map (·.path) ↔ w.path = q := by
    rw [List.map_singleton, List.mem_singleton]
    exact eq_comm
  constructor
  · intro w'
    simp [hwatchers]
  · intro q
    rw [hattached, Table.get?_erase]
    exact ite_congr (propext (hmem q)).symm (fun _ => rfl) fun _ => rfl
  · intro q
    rw [hbyPath, Table.get?_erase]
    exact ite_congr (propext (hmem q)).symm (fun _ => rfl) fun _ => rfl
  · intro key x hx hpath hid
    exact (seenFrom_tearDown h hx w).2 ((hmem _).mp hpath) hid r hr
  · intro key x hx hpath
    exact (seenFrom_tearDown h hx w).1 (mt (hmem _).mpr hpath)
  · refine ⟨_, resource_tearDown hr, loses_listenersLeft s w r, ?_⟩
    rw [List.forall_mem_singleton]
    exact ⟨closed_listenersLeft s w r.listeners,
      fun hid _ => not_registered_listenersLeft hid r.listeners⟩
  · intro hattached i hi
    exact resource_tearDown_ne (hattached w (List.mem_singleton_self w)) hi

/-- What is seen in two parts is seen in both together. -/
theorem seenFrom_append (key : ConversationKey) (first others : List Notification × Subscriptions) :
    seenFrom key (first.1 ++ others.1, others.2) =
      ((seenFrom key others).1, (seenFrom key first).2 ++ (seenFrom key others).2) := by
  rw [seenFrom, List.filter_append]
  rfl

/-- One watcher hears of it, and then the rest. -/
theorem Removed.cons {first others : List Notification × Subscriptions}
    (hfirst : Removed id r [w] s first) (hr₁ : first.2.resources[id]? = some r₁)
    (hothers : Removed id r₁ rest first.2 others)
    (hspares : ∀ key, first.2.entries.get? key = none → Spares key others) :
    Removed id r (w :: rest) s (first.1 ++ others.1, others.2) := by
  obtain ⟨r₁', hr₁', hloses, hends⟩ := hfirst.resource
  obtain rfl := Option.some.inj (hr₁.symm.trans hr₁')
  have hmem (q : String) : q ∈ (w :: rest).map (·.path) ↔
      q ∈ [w].map (·.path) ∨ q ∈ rest.map (·.path) := by
    simp
  constructor
  · intro w'
    rw [hothers.watchers, hfirst.watchers]
    simp [and_assoc]
  · intro q
    rw [hothers.attached, hfirst.attached]
    simp only [hmem]
    by_cases hq : q ∈ rest.map (·.path) <;> simp [hq]
  · intro q
    rw [hothers.byPath, hfirst.byPath]
    simp only [hmem]
    by_cases hq : q ∈ rest.map (·.path) <;> simp [hq]
  · intro key x hx hpath hid
    rw [seenFrom_append]
    by_cases hown : x.path ∈ [w].map (·.path)
    · -- its own path is torn down first, and then it has no subscription any more
      have hseen := hfirst.told key x hx hown hid
      rw [seenFrom_of_spares (hspares key (Prod.mk.inj hseen).1), hseen, List.append_nil]
    · have hseen := hfirst.spared key x hx hown
      have hid' : first.2.attached.get? x.path = some id := by
        rw [hfirst.attached, if_neg hown, hid]
      have hpath' := ((hmem _).mp hpath).resolve_left hown
      rw [hseen, hothers.told key x (Prod.mk.inj hseen).1 hpath' hid', hloses.notificationType_eq]
      rfl
  · intro key x hx hpath
    have hseen := hfirst.spared key x hx fun hown => hpath ((hmem _).mpr (.inl hown))
    rw [seenFrom_append, hseen, hothers.spared key x (Prod.mk.inj hseen).1 fun hother =>
      hpath ((hmem _).mpr (.inr hother))]
    rfl
  · obtain ⟨r', hr', hloses', hends'⟩ := hothers.resource
    refine ⟨r', hr', hloses.trans hloses', fun w' hw' => ⟨?_, fun hid hsole => ?_⟩⟩
    · rcases List.mem_cons.mp hw' with rfl | hw'
      · exact hloses'.closed _ (hends w' List.mem_cons_self).1
      · exact (hends' w' hw').1
    · by_cases hown : w'.path = w.path
      · obtain rfl : w = w' := hsole w List.mem_cons_self hown.symm
        have hgone := (hends w List.mem_cons_self).2 hid fun w' hw' _ => List.mem_singleton.mp hw'
        exact fun hregistered => hgone (hloses'.registered _ hregistered)
      · -- another path is torn down by another watcher, later on
        have hw' : w' ∈ rest := by
          refine (List.mem_cons.mp hw').resolve_left ?_
          rintro rfl
          exact hown rfl
        refine (hends' w' hw').2 ?_ fun w'' hw'' => hsole w'' (List.mem_cons_of_mem _ hw'')
        rw [hfirst.attached, if_neg (by simpa using hown), hid]
  · intro hattached i hi
    rw [hothers.others (fun w' hw' i hthere => ?_) i hi,
      hfirst.others (fun w' hw' => hattached w' ?_) i hi]
    · rw [List.mem_singleton.mp hw']
      exact List.mem_cons_self
    · rw [hfirst.attached] at hthere
      split at hthere
      · cases hthere
      · exact hattached w' (List.mem_cons_of_mem _ hw') i hthere

/-- **All watchers of a resource hear that it is gone**, one after the other. -/
theorem removed_hearAll (ws : List Watcher) :
    ∀ {s : Subscriptions} {r : Resource}, s.Consistent → s.resources[id]? = some r →
      (∀ w ∈ ws, w.resource = id ∧ r.listeners.inbox w.listener = [.removed]) →
      (ws.map (·.listener)).Nodup → Removed id r ws s (hearAll ws s) := by
  induction ws with
  | nil => exact fun _ hr _ _ => .nil hr
  | cons w rest ih =>
    intro s r h hr htold hnodup
    obtain ⟨rfl, hinbox⟩ := htold w List.mem_cons_self
    obtain ⟨hfirst, hrest⟩ := List.nodup_cons.mp hnodup
    have hconsistent : (tearDown w s).2.Consistent :=
      Consistent.hear w [.removed] (h.modifyResource w.resource _)
    rw [hearAll_cons rest hr, hinbox]
    refine (removed_tearDown h hr).cons (resource_tearDown hr)
      (ih hconsistent (resource_tearDown hr) (fun w' hw' => ?_) hrest)
      fun key => spares_hearAll rest
    -- the others have not been told anything else in the meantime
    obtain ⟨hid, hinbox'⟩ := htold w' (List.mem_cons_of_mem _ hw')
    have hother : w.listener ≠ w'.listener := by
      intro hsame
      exact hfirst (List.mem_map.mpr ⟨w', hw', hsame.symm⟩)
    exact ⟨hid, (inbox_listenersLeft s w r.listeners hother).trans hinbox'⟩

/-! ## A resource announces its removal -/

/-- Every watcher of a resource listens to it under a number of its own, and has heard all that it
has been told. -/
structure Attended (s : Subscriptions) (id : ResourceId) (r : Resource) : Prop where
  resource : s.resources[id]? = some r
  listens : ∀ w ∈ s.watchers, w.resource = id → r.listeners.Awaits w.listener
  numbers : ((s.watchers.filter (·.resource == id)).map (·.listener)).Nodup

/-- The watchers of a resource are those that are kept for it. -/
theorem mem_filter_watchers_iff : w ∈ s.watchers.filter (·.resource == id) ↔
    w ∈ s.watchers ∧ w.resource = id := by
  simp

/-- A resource that announces its removal is removed from all its watchers. -/
theorem removed_announce (h : s.Consistent) (hr : s.Attended id r) :
    Removed id r (s.watchers.filter (·.resource == id)) s (s.announce id .removed) := by
  let r₁ : Resource := { r with listeners := r.listeners.publish .removed }
  have hr₁ : (s.tell id .removed).resources[id]? = some r₁ := by
    rw [tell, modifyResource, List.getElem?_modify_eq, hr.resource]
    rfl
  have hremoved : Removed id r₁ (s.watchers.filter (·.resource == id)) (s.tell id .removed)
      (s.announce id .removed) := by
    refine removed_hearAll _ (h.modifyResource id _) hr₁ (fun w hw => ?_) hr.numbers
    obtain ⟨hw, hid⟩ := mem_filter_watchers_iff.mp hw
    exact ⟨hid, (hr.listens w hw hid).inbox_publish .removed⟩
  obtain ⟨r', hr', hloses, hends⟩ := hremoved.resource
  have htype : r₁.notificationType = r.notificationType := rfl
  refine ⟨hremoved.watchers, hremoved.attached, hremoved.byPath, htype ▸ hremoved.told,
    hremoved.spared, ⟨r', hr', (Resource.Loses.publish r .removed).trans hloses, hends⟩, ?_⟩
  intro hattached i hi
  rw [hremoved.others hattached i hi]
  exact List.getElem?_modify_ne _ _ hi.symm

end Subscriptions

end Coap
