/-
# What an observer is told

A change is told to all observers of a path in one pass, and the pass renders, numbers and
removes as it goes.  This file says what becomes of a single observer in it: whoever else is
told, it gets one notification under its next number, or loses the subscription with the news
that the state cannot be rendered; and a removal ends the subscription with the news of that.
-/
import Coap.Proofs.Observe.Terms

namespace Coap

/-- Whether a notification is meant for a subscription. -/
def Notification.isFor (key : ConversationKey) (n : Notification) : Bool :=
  n.peer = key.peer ∧ n.message.token = key.token

namespace Subscriptions

variable {s s' : Subscriptions} {key other : ConversationKey} {x : Subscription} {path : String}
  {id : ResourceId} {type : MessageType}

/-! ## Notifications of one observer -/

theorem filter_notificationsOf_self {e : Edit} (htoken : e.message.token = key.token) :
    (notificationsOf key.peer e).filter (Notification.isFor key) = notificationsOf key.peer e := by
  unfold notificationsOf
  split
  · simp [Notification.isFor, htoken]
  · rfl

theorem filter_notificationsOf_ne {e : Edit} (htoken : e.message.token = other.token)
    (hother : other ≠ key) :
    (notificationsOf other.peer e).filter (Notification.isFor key) = [] := by
  rw [List.filter_eq_nil_iff]
  intro n hn hfor
  obtain ⟨hpeer, htoken'⟩ : n.peer = key.peer ∧ n.message.token = key.token := by
    simpa [Notification.isFor] using hfor
  refine spares_notificationsOf hother htoken n hn ?_
  rw [hpeer, htoken']

theorem filter_of_spares {result : List Notification × Subscriptions} (h : Spares key result) :
    result.1.filter (Notification.isFor key) = [] := by
  rw [List.filter_eq_nil_iff]
  intro n hn hfor
  obtain ⟨hpeer, htoken⟩ : n.peer = key.peer ∧ n.message.token = key.token := by
    simpa [Notification.isFor] using hfor
  refine h.2 n hn ?_
  rw [hpeer, htoken]

/-- What is left of an operation for one observer: its subscription, and what it is told. -/
def seenFrom (key : ConversationKey) (result : List Notification × Subscriptions) :
    Option Subscription × List Notification :=
  (result.2.entries.get? key, result.1.filter (Notification.isFor key))

/-- What another observer is told is not seen. -/
theorem seenFrom_append_ne {e : Edit} (htoken : e.message.token = other.token)
    (hother : other ≠ key) (result : List Notification × Subscriptions) :
    seenFrom key (notificationsOf other.peer e ++ result.1, result.2) = seenFrom key result := by
  rw [seenFrom, List.filter_append, filter_notificationsOf_ne htoken hother]
  rfl

/-- What the observer is told itself is all it sees, if nothing follows. -/
theorem seenFrom_append_self {e : Edit} {result : List Notification × Subscriptions}
    {x? : Option Subscription} (htoken : e.message.token = key.token)
    (h : seenFrom key result = (x?, [])) :
    seenFrom key (notificationsOf key.peer e ++ result.1, result.2) =
      (x?, notificationsOf key.peer e) := by
  obtain ⟨hentry, hnone⟩ := Prod.mk.inj h
  rw [seenFrom, List.filter_append, hnone, filter_notificationsOf_self htoken, List.append_nil,
    hentry]

theorem seenFrom_of_spares {result : List Notification × Subscriptions} (h : Spares key result) :
    seenFrom key result = (none, []) := by
  rw [seenFrom, h.1, filter_of_spares h]

/-- What a change does to one observer.  It is told the state under its next number, or it is
told why there is none and loses the subscription. -/
def told (s : Subscriptions) (id : ResourceId) (type : MessageType) (key : ConversationKey)
    (x : Subscription) : Option Subscription × List Notification :=
  match (s.render id x.accept?).1 with
  | .ok r => (some { x with number := x.number.next },
      notificationsOf key.peer (Notification.ofState type key.token x.number.next r x.etags))
  | .error f => (none, notificationsOf key.peer (Notification.ofFailure type key.token f))

/-! ## Changes -/

/-- **What one observer sees of a pass over many**: what it would be told alone, if it is among
them. -/
theorem seenFrom_notifyEach (id : ResourceId) (type : MessageType) (keys : List ConversationKey) :
    ∀ {seen : Renderings} {s : Subscriptions} {x : Subscription}, s.Fresh id seen →
      keys.Nodup → s.entries.get? key = some x →
      seenFrom key (notifyEach id type keys seen s) =
        if key ∈ keys then s.told id type key x else (some x, []) := by
  induction keys with
  | nil =>
    intro seen s x _ _ hx
    rw [if_neg List.not_mem_nil, notifyEach, seenFrom, hx]
    rfl
  | cons first rest ih =>
    intro seen s x hfresh hnodup hx
    obtain ⟨hfirst, hrest⟩ := List.nodup_cons.mp hnodup
    cases hy : s.entries.get? first with
    | none =>
      have hne : key ≠ first := by
        rintro rfl
        rw [hx] at hy
        cases hy
      rw [notifyEach]
      simp only [hy]
      rw [ih hfresh hrest hx]
      simp [hne]
    | some y =>
      let numbered : Subscriptions :=
        { s with entries := s.entries.insert first { y with number := y.number.next } }
      let rendered := numbered.renderOnce id y.accept? seen
      obtain ⟨hrendered, hstill, hstate, hentry⟩ := renderOnce_numbered hfresh first y
      have hleft (f : ConversationKey) : (rendered.2.2.remove f).Fresh id rendered.2.1 :=
        hstill.congr (render_congr_fst (resources_remove ..) id)
      rw [notifyEach_cons rest seen hy]
      by_cases hkey : first = key
      · -- its own turn, after which the others are told
        subst hkey
        obtain rfl := Option.some.inj (hx.symm.trans hy)
        rw [if_pos List.mem_cons_self, told, ← hrendered]
        cases hr : (numbered.renderOnce id x.accept? seen).1 with
        | ok r =>
          have hothers := ih hstill hrest ((hentry first).trans (if_pos rfl))
          rw [if_neg hfirst] at hothers
          exact seenFrom_append_self (Notification.token_ofState ..) hothers
        | error f =>
          have hnone : (rendered.2.2.remove first).entries.get? first = none := by
            rw [get?_remove_eq, if_pos rfl]
          exact seenFrom_append_self (Notification.token_ofFailure ..)
            (seenFrom_of_spares (spares_notifyEach id type rest _ hnone))
      · have hthere : rendered.2.2.entries.get? key = some x := by
          rw [hentry, if_neg hkey, hx]
        simp only [List.mem_cons, Ne.symm hkey, false_or]
        cases hr : (numbered.renderOnce id y.accept? seen).1 with
        | ok r =>
          refine (seenFrom_append_ne (Notification.token_ofState ..) hkey _).trans ?_
          rw [ih hstill hrest hthere, told, hstate]
          rfl
        | error f =>
          have hthere' : (rendered.2.2.remove first).entries.get? key = some x := by
            rw [get?_remove_eq, if_neg hkey, hthere]
          refine (seenFrom_append_ne (Notification.token_ofFailure ..) hkey _).trans ?_
          rw [ih (hleft first) hrest hthere', told, render_congr_fst (resources_remove ..), hstate]
          rfl

/-- Who observes a path is listed there, and something is attached to it. -/
theorem Consistent.mem_keysAt_iff_of_get? (h : s.Consistent) (hx : s.entries.get? key = some x)
    (path : String) : key ∈ s.keysAt path ↔ path = x.path := by
  rw [h.listed, path?, hx, Option.map_some, Option.some.injEq]
  exact eq_comm

/-- A change at another path is not noticed; a change at its own path is told to the observer,
with the state of what is attached there. -/
theorem seenFrom_change (h : s.Consistent) (hx : s.entries.get? key = some x) (path : String)
    (type? : Option MessageType) :
    (path ≠ x.path → seenFrom key (s.change path type?) = (some x, [])) ∧
      (path = x.path → ∃ id type, s.attached.get? x.path = some id ∧
        seenFrom key (s.change path type?) = s.told id type key x) := by
  have hmem := h.mem_keysAt_iff_of_get? hx path
  have hpass (id : ResourceId) (type : MessageType) :=
    seenFrom_notifyEach id type (s.keysAt path) (.nil s id) (h.nodup path) hx
  unfold change
  constructor
  · intro hpath
    split
    · rw [seenFrom, hx]
      rfl
    · exact (hpass _ _).trans (if_neg (mt hmem.mp hpath))
  · rintro rfl
    obtain ⟨id, hid⟩ := Option.isSome_iff_exists.mp
      (h.attached key x.path (path?_eq_some_iff.mpr ⟨x, hx, rfl⟩))
    simp only [hid]
    exact ⟨id, _, rfl, (hpass id _).trans (if_pos (hmem.mpr rfl))⟩

/-! ## Removals -/

theorem seenFrom_dismissEach (type : MessageType) (keys : List ConversationKey) :
    ∀ {s : Subscriptions}, keys.Nodup → s.entries.get? key = some x →
      seenFrom key (dismissEach type keys s) =
        if key ∈ keys then
          (none, notificationsOf key.peer (Notification.ofRemoval type key.token))
        else (some x, []) := by
  induction keys with
  | nil =>
    intro s _ hx
    rw [if_neg List.not_mem_nil, dismissEach, seenFrom, hx]
    rfl
  | cons first rest ih =>
    intro s hnodup hx
    obtain ⟨hfirst, hrest⟩ := List.nodup_cons.mp hnodup
    have herased (k : ConversationKey) :
        ({ s with entries := s.entries.erase first } : Subscriptions).entries.get? k =
          if first = k then none else s.entries.get? k := Table.get?_erase ..
    unfold dismissEach
    by_cases hkey : first = key
    · subst hkey
      rw [if_pos (by rw [Table.contains, hx]; rfl), if_pos List.mem_cons_self]
      exact seenFrom_append_self (Notification.token_blank ..)
        (seenFrom_of_spares (spares_dismissEach type rest ((herased first).trans (if_pos rfl))))
    · simp only [List.mem_cons, Ne.symm hkey, false_or]
      split
      · refine (seenFrom_append_ne (Notification.token_blank ..) hkey _).trans ?_
        exact ih hrest (((herased key).trans (if_neg hkey)).trans hx)
      · exact ih hrest hx

/-- The usual type of notifications about what is attached at a path. -/
def usualType (s : Subscriptions) (path : String) : MessageType :=
  match (s.attached.get? path).bind (s.resources[·]?) with
  | some r => r.notificationType
  | none => .nonConfirmable

theorem usualType_eq {r : Resource} (hid : s.attached.get? path = some id)
    (hr : s.resources[id]? = some r) : s.usualType path = r.notificationType := by
  rw [usualType, hid, Option.bind_some, hr]

/-- A path is taken off both tables, those who observe it are dismissed, and what was attached there
has a listener less. -/
theorem detach_eq (s : Subscriptions) (path : String) (listener : ListenerId) :
    s.detach path listener =
      let dismissed := dismissEach (s.usualType path) (s.keysAt path)
        { s with attached := s.attached.erase path, byPath := s.byPath.erase path }
      (dismissed.1,
        match s.attached.get? path with
        | some id => dismissed.2.modifyResource id fun r =>
          { r with listeners := r.listeners.unregister listener }
        | none => dismissed.2) :=
  rfl

/-- A removal at another path is not noticed; one at its own path ends the subscription. -/
theorem seenFrom_detach (h : s.Consistent) (hx : s.entries.get? key = some x) (path : String)
    (listener : ListenerId) :
    seenFrom key (s.detach path listener) =
      if path = x.path then
        (none, notificationsOf key.peer (Notification.ofRemoval (s.usualType path) key.token))
      else (some x, []) := by
  have hpass := seenFrom_dismissEach (s.usualType path) (s.keysAt path)
    (s := { s with attached := s.attached.erase path, byPath := s.byPath.erase path })
    (h.nodup path) hx
  simp only [h.mem_keysAt_iff_of_get? hx path] at hpass
  rw [← hpass, detach_eq]
  split <;> rfl

/-! ## What is heard -/

/-- The subscriptions after a watcher has heard an event. -/
def Hearing.after (h : Hearing) : Subscriptions := (hear h.watcher [h.event] h.state).2

/-- What is published because a watcher has heard an event. -/
def Hearing.notifications (h : Hearing) : List Notification :=
  (hear h.watcher [h.event] h.state).1

/-- What is published for one subscription because a watcher has heard an event. -/
def Hearing.notificationsFor (key : ConversationKey) (h : Hearing) : List Notification :=
  h.notifications.filter (Notification.isFor key)

/-- A change at a path is heard. -/
def Hearing.isChangeOf (path : String) (h : Hearing) : Bool :=
  h.watcher.path = path ∧ h.event ≠ .removed

theorem Hearing.isChangeOf_iff {h : Hearing} :
    h.isChangeOf path = true ↔ h.watcher.path = path ∧ ∃ type?, h.event = .changed type? := by
  unfold isChangeOf
  cases h.event <;> simp

/-- **What one observer sees of what is heard**: nothing of other paths, the state or the lack of
it when its path has changed, and the end when what it observes is gone. -/
theorem Hearing.seen (h : Hearing) (hs : h.state.Consistent)
    (hx : h.state.entries.get? key = some x) :
    (h.watcher.path ≠ x.path →
      h.after.entries.get? key = some x ∧ h.notificationsFor key = []) ∧
    (h.isChangeOf x.path = true → ∃ id type, h.state.attached.get? x.path = some id ∧
      (h.after.entries.get? key, h.notificationsFor key) = h.state.told id type key x) ∧
    (h.watcher.path = x.path → h.isChangeOf x.path = false → ∃ type,
      h.after.entries.get? key = none ∧ h.notificationsFor key =
        notificationsOf key.peer (Notification.ofRemoval type key.token)) := by
  obtain ⟨s, w, event⟩ := h
  have hseen : ((⟨s, w, event⟩ : Hearing).after.entries.get? key,
      (⟨s, w, event⟩ : Hearing).notificationsFor key) = seenFrom key (hear w [event] s) := rfl
  cases event with
  | changed type? =>
    have hchange : seenFrom key (hear w [.changed type?] s) =
        seenFrom key (s.change w.path type?) := by
      unfold seenFrom
      simp [hear]
    obtain ⟨helse, hown⟩ := seenFrom_change hs hx w.path type?
    refine ⟨fun hpath => ?_, fun hchanged => ?_, fun hpath hnot => ?_⟩
    · exact Prod.mk.inj (hseen.trans (hchange.trans (helse hpath)))
    · obtain ⟨id, type, hid, htold⟩ := hown (isChangeOf_iff.mp hchanged).1
      exact ⟨id, type, hid, hseen.trans (hchange.trans htold)⟩
    · have hchanged := isChangeOf_iff.mpr ⟨hpath, type?, rfl⟩
      rw [hnot] at hchanged
      cases hchanged
  | removed =>
    have hdetach : seenFrom key (hear w [.removed] s) = _ :=
      seenFrom_detach hs hx w.path w.listener
    refine ⟨fun hpath => ?_, fun hchanged => ?_, fun hpath _ => ⟨s.usualType w.path, ?_⟩⟩
    · rw [if_neg hpath] at hdetach
      exact Prod.mk.inj (hseen.trans hdetach)
    · obtain ⟨-, type?, hevent⟩ := isChangeOf_iff.mp hchanged
      cases hevent
    · rw [if_pos hpath] at hdetach
      exact Prod.mk.inj (hseen.trans hdetach)

/-- Who has no subscription sees nothing. -/
theorem Hearing.unseen (h : Hearing) (hnone : h.state.entries.get? key = none) :
    h.after.entries.get? key = none ∧ h.notificationsFor key = [] := by
  have hspares := spares_hear h.watcher [h.event] hnone
  exact ⟨hspares.1, filter_of_spares hspares⟩

/-! ## What is published on an event -/

/-- What is published because of an event. -/
def published (s : Subscriptions) : Event → List Notification
  | .announce id event => (s.announce id event).1
  | .hear w event => (hear w [event] s).1
  | _ => []

theorem notifications_hear (w : Watcher) (events : List ResourceEvent) (s : Subscriptions) :
    (hear w events s).1 = (hearings w events s).flatMap Hearing.notifications := by
  induction events generalizing s with
  | nil => rfl
  | cons event rest ih =>
    cases event with
    | changed type? =>
      rw [hearings, List.flatMap_cons, ← ih]
      simp [hear, Hearing.notifications]
    | removed => simp [hear, hearings, Hearing.notifications]

theorem notifications_hearAll (watchers : List Watcher) (s : Subscriptions) :
    (hearAll watchers s).1 = (allHearings watchers s).flatMap Hearing.notifications := by
  induction watchers generalizing s with
  | nil => rfl
  | cons w rest ih =>
    rw [allHearings, List.flatMap_append, ← ih, ← notifications_hear]
    rfl

/-- What is published on an event is what is published because of all that is heard, in the
order in which it is heard. -/
theorem published_eq (s : Subscriptions) (event : Event) :
    s.published event = (s.heard event).flatMap Hearing.notifications := by
  cases event with
  | announce id event => exact notifications_hearAll _ _
  | hear w event => exact notifications_hear w [event] s
  | _ => rfl

end Subscriptions

end Coap
