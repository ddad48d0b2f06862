/-
# The numbers of notifications

The answer that begins a subscription carries its first number, and every change of its path
takes the next one.  Between two changes much can happen to the subscriptions, but nothing of
it touches the number of this one.  So the history since the answer is a chain of states: some
pairs of neighbours differ by what is heard, the others agree on the subscription.
-/
import Coap.Proofs.Message.Untouched
import Coap.Proofs.Observe.Circle
import Coap.Proofs.Observe.Lifecycle
import Coap.Proofs.Observe.Published

namespace Coap

/-! ## Numbers in notifications -/

/-- An edit that succeeds is its message and no fault. -/
theorem Edit.eq_of_toExcept {e : Edit} {m : Message} (h : e.toExcept = .ok m) : e = ⟨m, none⟩ := by
  obtain ⟨message, fault?⟩ := e
  cases fault? with
  | none =>
    cases h
    rfl
  | some fault => cases h

/-- A fault stays, whatever follows. -/
theorem Edit.isSome_fault?_andThen {e : Edit} (h : e.fault?.isSome = true) (f : Message → Edit) :
    (e.andThen f).fault?.isSome = true := by
  unfold andThen
  split
  · next hnone =>
    rw [hnone] at h
    cases h
  · exact h

namespace Notification

/-- The number that is given is the number that is sent. -/
theorem observed?_ofState (type : MessageType) (token : Token) (number : SequenceNumber)
    (r : Representation) (etags : List Bytes) :
    (ofState type token number r etags).message.observed? = some number := by
  have hnumbered (status : Status) : ∃ m,
      (blank type status token).andThen (·.setObserve number) = ⟨m, none⟩ ∧
        m.observed? = some number := by
    obtain ⟨m, hset, hobserved⟩ := Subscriptions.observed?_setObserve
      (not_isEmpty_response type status token) number
    refine ⟨m, ?_, hobserved⟩
    rw [blank_eq, Edit.andThen_done]
    exact Edit.eq_of_toExcept hset
  unfold ofState
  split
  · obtain ⟨m, hset, hobserved⟩ := hnumbered .valid
    rw [hset, Edit.andThen_done, ← hobserved]
    exact (Message.SameValues.writeValidators r m (by decide) (by decide)).observed?_eq
  · obtain ⟨m, hset, hobserved⟩ := hnumbered .content
    rw [hset, Edit.andThen_done, ← hobserved]
    exact (Message.SameValues.write r m (by decide) (by decide) (by decide)).observed?_eq

/-- A notification of a failure has no number. -/
theorem observed?_ofFailure (type : MessageType) (token : Token) (f : Failure) :
    (ofFailure type token f).message.observed? = none := by
  unfold ofFailure
  rw [blank_eq, Edit.andThen_done, (Message.SameValues.setPayload _ _).observed?_eq]
  rfl

/-- A notification of the end of a resource has no number. -/
theorem observed?_ofRemoval (type : MessageType) (token : Token) :
    (ofRemoval type token).message.observed? = none := by
  unfold ofRemoval
  rw [blank_eq]
  rfl

end Notification

/-! ## Subscriptions that have been numbered on -/

/-- The same subscription, `n` numbers later. -/
structure Subscription.Advanced (n : Nat) (x y : Subscription) : Prop where
  path : y.path = x.path
  etags : y.etags = x.etags
  accept? : y.accept? = x.accept?
  number : y.number = x.number.after n

namespace Subscription.Advanced

variable {n k : Nat} {x y z : Subscription}

/-- A subscription has not been numbered on when nothing happened. -/
theorem refl (x : Subscription) : Advanced 0 x x :=
  ⟨rfl, rfl, rfl, x.number.after_zero.symm⟩

/-- Numbers that follow each other are added. -/
theorem trans (h : Advanced n x y) (h' : Advanced k y z) : Advanced (n + k) x z where
  path := h'.path.trans h.path
  etags := h'.etags.trans h.etags
  accept? := h'.accept?.trans h.accept?
  number := by rw [h'.number, h.number, SequenceNumber.after_after]

end Subscription.Advanced

namespace Subscriptions

variable {s s' s'' : Subscriptions} {key : ConversationKey} {x y : Subscription}
  {hs hs' earlier later : List Hearing} {h : Hearing} {request : Message}

/-! ## Chains of what is heard -/

/-- The subscription under a key is lost, or is the same but for the ID of its latest
notification. -/
def Keeps (key : ConversationKey) (s s' : Subscriptions) : Prop :=
  ∀ y, s'.entries.get? key = some y → ∃ x, s.entries.get? key = some x ∧ x.Advanced 0 y

/-- What leaves an entry alone keeps it. -/
theorem Keeps.of_same (hsame : s'.entries.get? key = s.entries.get? key) : Keeps key s s' := by
  intro y hy
  exact ⟨y, hsame ▸ hy, .refl y⟩

/-- A subscription is kept unless it is the one to be removed. -/
theorem Keeps.remove (s : Subscriptions) (other key : ConversationKey) :
    Keeps key s (s.remove other) := by
  intro y hy
  rw [get?_remove_eq] at hy
  split at hy
  · cases hy
  · exact ⟨y, hy, .refl y⟩

/-- What comes in may end a subscription and cannot change its number. -/
theorem Keeps.receive (s : Subscriptions) (peer : Endpoint) (m : Message)
    (key : ConversationKey) : Keeps key s (s.receive peer m).2 := by
  unfold Subscriptions.receive
  split
  · split
    · exact .remove s _ key
    · exact .of_same rfl
  · split
    · exact .remove s _ key
    · exact .of_same rfl

/-- An answer that does not begin the subscription anew ends it or has nothing to do with it. -/
theorem Keeps.send {peer : Endpoint} {m : Message}
    (hnot : ∀ request, ¬ s.Begins key request (.send peer m request?)) :
    Keeps key s (s.send peer m request?).2 := by
  cases request? with
  | none => exact .of_same rfl
  | some request =>
    have hnot := mt begins_send_iff.mpr (hnot request)
    unfold Subscriptions.send
    simp only
    split
    · next hasks =>
      split
      · next hsuccess =>
        have hkey : (⟨peer, m.token⟩ : ConversationKey) ≠ key := fun hkey =>
          hnot ⟨rfl, hkey, hasks, hsuccess⟩
        have hsame := get?_register_eq s ⟨peer, m.token⟩ key
          (Path.normalize request.uriPath) request
        rw [if_neg hkey] at hsame
        split <;> exact .of_same hsame
      · exact .remove s _ key
    · exact .of_same rfl

/-- A failed exchange ends a subscription or leaves it. -/
theorem Keeps.settle (s : Subscriptions) (event : ExchangeEvent) (key : ConversationKey) :
    Keeps key s (s.settle event) := by
  unfold Subscriptions.settle
  split
  · exact .of_same rfl
  · simp only
    split
    · split
      · exact .remove s _ key
      · exact .of_same rfl
    · exact .of_same rfl

/-- An ID is recorded beside the number. -/
theorem Keeps.recordId (s : Subscriptions) (other : ConversationKey) (id : MessageId)
    (key : ConversationKey) : Keeps key s (s.recordId other id) := by
  intro y hy
  have hget : (s.recordId other id).entries.get? key =
      if other = key then (s.entries.get? key).map fun x => { x with lastId? := some id }
      else s.entries.get? key := Table.get?_modify ..
  rw [hget] at hy
  split at hy
  · obtain ⟨x, hx, rfl⟩ := Option.map_eq_some_iff.mp hy
    exact ⟨x, hx, rfl, rfl, rfl, x.number.after_zero.symm⟩
  · exact ⟨y, hy, .refl y⟩

/-- What is heard takes the subscription one number further if it is a change of its path. -/
theorem Hearing.advanced {h : Hearing} (hc : h.state.Consistent)
    (hx : h.state.entries.get? key = some x) {y : Subscription}
    (hy : h.after.entries.get? key = some y) :
    x.Advanced (if h.isChangeOf x.path then 1 else 0) y := by
  obtain ⟨helse, hchange, hremoval⟩ := h.seen hc hx
  by_cases hpath : h.watcher.path = x.path
  · cases hchanged : h.isChangeOf x.path with
    | true =>
      obtain ⟨id, type, -, htold⟩ := hchange hchanged
      unfold told at htold
      split at htold
      · obtain ⟨hafter, -⟩ := Prod.mk.inj htold
        obtain rfl := Option.some.inj (hafter.symm.trans hy)
        refine ⟨rfl, rfl, rfl, ?_⟩
        rw [if_pos rfl, ← SequenceNumber.next_after, SequenceNumber.after_zero]
      · obtain ⟨hafter, -⟩ := Prod.mk.inj htold
        cases hafter.symm.trans hy
    | false =>
      obtain ⟨_, hafter, -⟩ := hremoval hpath hchanged
      cases hafter.symm.trans hy
  · have hnot : ¬ h.isChangeOf x.path = true := fun hchanged =>
      hpath (Hearing.isChangeOf_iff.mp hchanged).1
    rw [if_neg hnot]
    obtain rfl := Option.some.inj ((helse hpath).1.symm.trans hy)
    exact .refl x

/-- From one state to another, some things are heard, and in between the subscription under a
key is left alone or lost. -/
inductive Passes (key : ConversationKey) : Subscriptions → List Hearing → Subscriptions → Prop
  | still {s s' : Subscriptions} : Keeps key s s' → Passes key s [] s'
  | heard (h : Hearing) : h.state.Consistent → Passes key h.state [h] h.after
  | append {s s' s'' : Subscriptions} {hs hs' : List Hearing} :
      Passes key s hs s' → Passes key s' hs' s'' → Passes key s (hs ++ hs') s''

namespace Passes

/-- Where nothing is heard, nothing passes. -/
theorem refl (s : Subscriptions) : Passes key s [] s := .still (.of_same rfl)

/-- A resource may change without anybody hearing of it. -/
theorem modifyResource (s : Subscriptions) (id : ResourceId) (f : Resource → Resource) :
    Passes key s [] (s.modifyResource id f) := .still (.of_same rfl)

/-- Anything that is heard cuts the chain in two. -/
theorem split (hp : Passes key s hs s') (heq : hs = earlier ++ h :: later) :
    Passes key s earlier h.state ∧ h.state.Consistent ∧ Passes key h.after later s' := by
  induction hp generalizing earlier later with
  | still => cases earlier <;> cases heq
  | heard h₀ hc =>
    cases earlier with
    | nil =>
      cases heq
      exact ⟨refl _, hc, refl _⟩
    | cons _ rest => cases rest <;> cases heq
  | @append s s' s'' hs hs' hp hp' ih ih' =>
    rcases List.append_eq_append_iff.mp heq with ⟨middle, rfl, heq'⟩ | ⟨middle, rfl, heq'⟩
    · obtain ⟨hbefore, hc, hafter⟩ := ih' heq'
      exact ⟨hp.append hbefore, hc, hafter⟩
    · cases middle with
      | nil =>
        obtain ⟨hbefore, hc, hafter⟩ := ih' (show hs' = [] ++ h :: later from heq'.symm)
        rw [List.append_nil] at hp
        exact ⟨(List.append_nil earlier) ▸ hp.append hbefore, hc, hafter⟩
      | cons first middle =>
        obtain ⟨rfl, rfl⟩ := List.cons.inj heq'
        obtain ⟨hbefore, hc, hafter⟩ := ih rfl
        exact ⟨hbefore, hc, hafter.append hp'⟩

/-- **The number goes up with the changes of the path**, and with nothing else. -/
theorem advanced (hp : Passes key s hs s') (hy : s'.entries.get? key = some y) :
    ∃ x, s.entries.get? key = some x ∧ x.Advanced (hs.countP (Hearing.isChangeOf x.path)) y := by
  induction hp generalizing y with
  | still hkeeps => exact hkeeps y hy
  | heard h hc =>
    cases hx : h.state.entries.get? key with
    | none =>
      rw [(h.unseen hx).1] at hy
      cases hy
    | some x =>
      refine ⟨x, rfl, ?_⟩
      rw [List.countP_singleton]
      exact h.advanced hc hx hy
  | append hp hp' ih ih' =>
    obtain ⟨x', hx', hadvanced'⟩ := ih' hy
    obtain ⟨x, hx, hadvanced⟩ := ih hx'
    refine ⟨x, hx, ?_⟩
    rw [hadvanced.path] at hadvanced'
    rw [List.countP_append]
    exact hadvanced.trans hadvanced'

/-! ## Events as chains -/

/-- A watcher hears its events one after another. -/
theorem hear (w : Watcher) (events : List ResourceEvent) :
    ∀ {s : Subscriptions}, s.Consistent →
      Passes key s (hearings w events s) (Subscriptions.hear w events s).2 := by
  induction events with
  | nil => exact fun {s} _ => refl s
  | cons event rest ih =>
    intro s hs
    cases event with
    | changed type? =>
      exact (heard ⟨s, w, .changed type?⟩ hs).append (ih (hs.change w.path type?))
    | removed => exact heard ⟨s, w, .removed⟩ hs

/-- The watchers hear their events one watcher after another. -/
theorem hearAll (watchers : List Watcher) :
    ∀ {s : Subscriptions}, s.Consistent →
      Passes key s (allHearings watchers s) (Subscriptions.hearAll watchers s).2 := by
  induction watchers with
  | nil => exact fun {s} _ => refl s
  | cons w rest ih =>
    intro s hs
    have hdrained := hs.modifyResource w.resource fun r =>
      { r with listeners := (r.listeners.drain w.listener).2 }
    exact ((modifyResource s w.resource _).append (hear w _ hdrained)).append
      (ih (Consistent.hear w _ hdrained))

/-- An event that does not begin the subscription anew is such a chain. -/
theorem step (hs : s.Consistent) (event : Event)
    (hnot : ∀ request, ¬ s.Begins key request event) :
    Passes key s (s.heard event) (s.step event) := by
  cases event with
  | add r => exact still (.of_same rfl)
  | attach path id => exact still (.of_same (by rw [Subscriptions.step, attach_entries]))
  | modify id f => exact still (.of_same rfl)
  | receive peer m => exact still (.receive s peer m key)
  | send peer m request? => exact still (.send hnot)
  | settle event => exact still (.settle s event key)
  | recordId other id => exact still (.recordId s other id key)
  | announce id event =>
    exact (modifyResource s id _).append (hearAll _ (hs.modifyResource id _))
  | hear w event => exact hear w [event] hs

end Passes

/-! ## Histories -/

/-- What is heard during a history. -/
def heardDuring (s : Subscriptions) : List Event → List Hearing
  | [] => []
  | event :: rest => s.heard event ++ heardDuring (s.step event) rest

/-- What is published during a history. -/
def publishedDuring (s : Subscriptions) : List Event → List Notification
  | [] => []
  | event :: rest => s.published event ++ publishedDuring (s.step event) rest

/-- What is published follows from what is heard. -/
theorem publishedDuring_eq (s : Subscriptions) (events : List Event) :
    s.publishedDuring events = (s.heardDuring events).flatMap Hearing.notifications := by
  induction events generalizing s with
  | nil => rfl
  | cons event rest ih =>
    rw [publishedDuring, heardDuring, List.flatMap_append, published_eq, ih]

/-- What is published during two histories is published during both together. -/
theorem publishedDuring_append (s : Subscriptions) (events more : List Event) :
    s.publishedDuring (events ++ more) =
      s.publishedDuring events ++ (s.run events).publishedDuring more := by
  induction events generalizing s with
  | nil => rfl
  | cons event rest ih =>
    rw [List.cons_append, publishedDuring, ih, publishedDuring, List.append_assoc]
    rfl

/-- Whatever happens while no new subscription begins is a chain of what is heard. -/
theorem Passes.run (hs : s.Consistent) (events : List Event)
    (hnot : ∀ mid e rest, events = mid ++ e :: rest →
      ∀ request, ¬ (s.run mid).Begins key request e) :
    Passes key s (s.heardDuring events) (s.run events) := by
  induction events generalizing s with
  | nil => exact refl s
  | cons event rest ih =>
    refine (step hs event (hnot [] event rest rfl)).append (ih (hs.step event) ?_)
    rintro mid e rest' rfl
    exact hnot (event :: mid) e rest' rfl

/-- What is published for a subscription because of what is heard, the path having changed `n`
times before: under the next number the state, if it can be rendered, and otherwise something
without a number that ends it. -/
structure Told (key : ConversationKey) (request : Message) (first : SequenceNumber) (n : Nat)
    (h : Hearing) : Prop where
  changed : h.isChangeOf (Path.normalize request.uriPath) = true →
    ∃ id type, h.state.attached.get? (Path.normalize request.uriPath) = some id ∧
      match (h.state.render id request.accept?).1 with
      | .ok r =>
        let edit := Notification.ofState type key.token (first.after (n + 1)) r request.etags
        h.notificationsFor key = notificationsOf key.peer edit ∧
          edit.message.observed? = some (first.after (n + 1)) ∧
          (h.after.entries.get? key).isSome = true
      | .error f =>
        let edit := Notification.ofFailure type key.token f
        h.notificationsFor key = notificationsOf key.peer edit ∧ edit.message.observed? = none ∧
          h.after.entries.get? key = none
  unchanged : h.isChangeOf (Path.normalize request.uriPath) = false →
    ∀ note ∈ h.notificationsFor key,
      note.message.observed? = none ∧ h.after.entries.get? key = none

/-- What a built notification is. -/
theorem eq_of_mem_notificationsOf {peer : Endpoint} {e : Edit} {note : Notification}
    (h : note ∈ notificationsOf peer e) : note.message = e.message := by
  unfold notificationsOf at h
  split at h
  · rw [List.mem_singleton.mp h]
  · cases h

/-- A subscription that was numbered on has been told of everything. -/
theorem told_of_advanced {first : SequenceNumber} {n : Nat} (hc : h.state.Consistent)
    (hx : h.state.entries.get? key = some x) (hpath : x.path = Path.normalize request.uriPath)
    (hetags : x.etags = request.etags) (haccept : x.accept? = request.accept?)
    (hnumber : x.number = first.after n) : Told key request first n h := by
  obtain ⟨helse, hchange, hremoval⟩ := h.seen hc hx
  rw [hpath] at helse hchange hremoval
  refine ⟨fun hchanged => ?_, fun hunchanged note hnote => ?_⟩
  · obtain ⟨id, type, hid, htold⟩ := hchange hchanged
    refine ⟨id, type, hid, ?_⟩
    rw [told, haccept, hetags, hnumber, SequenceNumber.next_after] at htold
    cases hr : (h.state.render id request.accept?).1 with
    | ok r =>
      rw [hr] at htold
      obtain ⟨hafter, hnotes⟩ := Prod.mk.inj htold
      exact ⟨hnotes, Notification.observed?_ofState .., by rw [hafter]; rfl⟩
    | error f =>
      rw [hr] at htold
      obtain ⟨hafter, hnotes⟩ := Prod.mk.inj htold
      exact ⟨hnotes, Notification.observed?_ofFailure .., hafter⟩
  · by_cases hwhere : h.watcher.path = Path.normalize request.uriPath
    · obtain ⟨type, hafter, hnotes⟩ := hremoval hwhere hunchanged
      rw [hnotes] at hnote
      rw [eq_of_mem_notificationsOf hnote]
      exact ⟨Notification.observed?_ofRemoval .., hafter⟩
    · rw [(helse hwhere).2] at hnote
      cases hnote

/-- Whatever carries a number was published for a change, under the number of that change. -/
theorem Told.number {first : SequenceNumber} {n : Nat} (ht : Told key request first n h)
    {note : Notification} (hnote : note ∈ h.notificationsFor key) {number : SequenceNumber}
    (hnumber : note.message.observed? = some number) :
    h.isChangeOf (Path.normalize request.uriPath) = true ∧ number = first.after (n + 1) := by
  cases hchanged : h.isChangeOf (Path.normalize request.uriPath) with
  | false =>
    rw [(ht.unchanged hchanged note hnote).1] at hnumber
    cases hnumber
  | true =>
    obtain ⟨id, type, -, htold⟩ := ht.changed hchanged
    refine ⟨rfl, ?_⟩
    split at htold
    · rw [htold.1] at hnote
      rw [eq_of_mem_notificationsOf hnote, htold.2.1] at hnumber
      exact (Option.some.inj hnumber).symm
    · rw [htold.1] at hnote
      rw [eq_of_mem_notificationsOf hnote, htold.2.1] at hnumber
      cases hnumber

/-- **Changes number the notifications.**  A request to observe is answered with a first number,
and no later answer begins the subscription anew.  Then as long as the subscription lasts the
notification of the `n`th change of its path since that answer carries the `n`th number after the
first one, modulo the size of the circle, and everything is published in the order in which it
is heard; nothing else that happens changes the number.  Of two notifications the later one is
the fresher, unless `2 ^ 23 - 1` or more changes lie between them. -/
theorem numbered_by_changes (firstNumbers : Draws SequenceNumber) (before since : List Event)
    (event : Event) (key : ConversationKey) (request : Message)
    (hbegins : (run { firstNumbers } before).Begins key request event)
    (hlatest : ∀ mid e rest, since = mid ++ e :: rest → ∀ request',
      ¬ (run { firstNumbers } (before ++ event :: mid)).Begins key request' e) :
    let isChange := Hearing.isChangeOf (Path.normalize request.uriPath)
    let s := run { firstNumbers } (before ++ [event])
    let hearings := s.heardDuring since
    ∃ m answer first, event = .send key.peer m (some request) ∧
      ((run { firstNumbers } before).send key.peer m (some request)).1 = .ok answer ∧
      answer.observed? = some first ∧
      s.publishedDuring since = hearings.flatMap Hearing.notifications ∧
      (∀ earlier h later, hearings = earlier ++ h :: later →
        if (h.state.entries.get? key).isSome then
          Told key request first (earlier.countP isChange) h
        else h.notificationsFor key = []) ∧
      (∀ earlier h between h' later, hearings = earlier ++ h :: (between ++ h' :: later) →
        ∀ note ∈ h.notificationsFor key, ∀ note' ∈ h'.notificationsFor key,
        ∀ number ∈ note.message.observed?, ∀ number' ∈ note'.message.observed?,
          between.countP isChange < 2 ^ 23 - 1 →
          ∀ elapsed, number'.isFresherThan number elapsed = true) ∧
      ∀ x, (s.run since).entries.get? key = some x →
        x.number = first.after (hearings.countP isChange) := by
  intro isChange s hearings
  obtain ⟨m, hevent, -⟩ := hbegins.answers
  subst hevent
  obtain ⟨answer, first, hsend, hobserved, hfirst⟩ := send_of_begins hbegins
  have hs : s.Consistent := (Consistent.empty firstNumbers).run _
  have hstep : s = (run { firstNumbers } before).step (.send key.peer m (some request)) :=
    run_append _ _ _
  -- the subscription as it begins
  obtain ⟨x₀, hx₀, hterms⟩ := exists_of_terms? (terms?_step_of_begins hbegins)
  rw [← hstep] at hx₀
  have hnumber₀ : x₀.number = first := by
    rw [← hstep, number?, hx₀] at hfirst
    exact Option.some.inj hfirst
  -- what is heard since then is a chain, and the number counts the changes along it
  have hpasses : Passes key s hearings (s.run since) := by
    refine Passes.run hs since fun mid e rest heq request' => ?_
    rw [← run_append, List.append_assoc]
    exact hlatest mid e rest heq request'
  have hadvanced {hs' : List Hearing} {s' : Subscriptions} {x : Subscription}
      (hp : Passes key s hs' s') (hx : s'.entries.get? key = some x) :
      x₀.Advanced (hs'.countP isChange) x := by
    obtain ⟨x', hx', hadvanced⟩ := hp.advanced hx
    obtain rfl := Option.some.inj (hx₀.symm.trans hx')
    rwa [show x₀.path = Path.normalize request.uriPath from congrArg Terms.path hterms]
      at hadvanced
  have htold {earlier later : List Hearing} {h : Hearing}
      (heq : hearings = earlier ++ h :: later) {x : Subscription}
      (hx : h.state.entries.get? key = some x) :
      Told key request first (earlier.countP isChange) h := by
    obtain ⟨hbefore, hc, -⟩ := hpasses.split heq
    have hfrom := hadvanced hbefore hx
    refine told_of_advanced hc hx ?_ ?_ ?_ ?_
    · exact hfrom.path.trans (congrArg Terms.path hterms)
    · exact hfrom.etags.trans (congrArg Terms.etags hterms)
    · exact hfrom.accept?.trans (congrArg Terms.accept? hterms)
    · rw [hfrom.number, hnumber₀]
  have hnumber {earlier later : List Hearing} {h : Hearing}
      (heq : hearings = earlier ++ h :: later) {note : Notification}
      (hnote : note ∈ h.notificationsFor key) {number : SequenceNumber}
      (hcarries : note.message.observed? = some number) :
      isChange h = true ∧ number = first.after (earlier.countP isChange + 1) := by
    cases hx : h.state.entries.get? key with
    | none =>
      rw [(h.unseen hx).2] at hnote
      cases hnote
    | some x => exact (htold heq hx).number hnote hcarries
  refine ⟨m, answer, first, rfl, hsend, hobserved, publishedDuring_eq s since, ?_, ?_, ?_⟩
  · intro earlier h later heq
    split
    · next hsome =>
      obtain ⟨x, hx⟩ := Option.isSome_iff_exists.mp hsome
      exact htold heq hx
    · next hnone => exact (h.unseen (by simpa using hnone)).2
  · intro earlier h between h' later heq note hnote note' hnote' number hcarries number' hcarries'
      hfew elapsed
    obtain ⟨hchanged, rfl⟩ := hnumber heq hnote hcarries
    have heq' : hearings = (earlier ++ h :: between) ++ h' :: later := by
      rw [heq, List.append_assoc, List.cons_append]
    obtain ⟨-, rfl⟩ := hnumber heq' hnote' hcarries'
    -- the first of both is a change itself, so they are one more apart than there are between
    have hcount : (earlier ++ h :: between).countP isChange + 1 =
        earlier.countP isChange + 1 + (between.countP isChange + 1) := by
      rw [List.countP_append, List.countP_cons_of_pos hchanged]
      omega
    rw [hcount, ← SequenceNumber.after_after]
    exact SequenceNumber.isFresherThan_after _ (by omega) (by omega) elapsed
  · intro x hx
    rw [(hadvanced hpasses hx).number, hnumber₀]

/-- Two changes at the end of the circle, and in between one of another resource: the first
notification has the number 0 and the second one the number 1. -/
theorem numbered_across_zero :
    let options := (Options.empty.add .observe (.unsigned 0)).add .uriPath (.text "temp")
    let token : Token := ⟨[1], by decide⟩
    let key : ConversationKey := ⟨⟨1⟩, token⟩
    let request : Message :=
      { type := .confirmable, code := .request .get, id := 9, token, options }
    let answer : Message := { Message.response .acknowledgement .content with token }
    let resource : Resource := { confirmable := false, state := fun _ => .ok {} }
    let firstNumbers : Draws SequenceNumber := .constant (.ofNat (2 ^ 24 - 1))
    let before : List Event :=
      [.add resource, .attach "/temp" 0, .add resource, .attach "/light" 1]
    let event : Event := .send ⟨1⟩ answer (some request)
    let since : List Event :=
      [.announce 0 (.changed none), .announce 1 (.changed none), .announce 0 (.changed none)]
    let s := run { firstNumbers } (before ++ [event])
    ((run { firstNumbers } before).Begins key request event ∧
      ∀ mid e rest, since = mid ++ e :: rest → ∀ request',
        ¬ (run { firstNumbers } (before ++ event :: mid)).Begins key request' e) ∧
    (s.publishedDuring since).map (·.message.observed?) = [some (.ofNat 0), some (.ofNat 1)] ∧
    ∃ first : SequenceNumber, ∀ x, (s.run since).entries.get? key = some x →
      x.number = first.after 2 := by
  intro options token key request answer resource firstNumbers before event since s
  have hbegins : (run { firstNumbers } before).Begins key request event :=
    ⟨⟨answer, rfl, rfl, by decide +kernel, by decide +kernel⟩, by decide +kernel,
      by decide +kernel⟩
  have hlatest : ∀ mid e rest, since = mid ++ e :: rest → ∀ request',
      ¬ (run { firstNumbers } (before ++ event :: mid)).Begins key request' e := by
    intro mid e rest heq request' hagain
    obtain ⟨m, rfl, -⟩ := hagain.answers
    have hmem : Event.send key.peer m (some request') ∈ since := by
      rw [heq]
      exact List.mem_append_right _ List.mem_cons_self
    simp [since] at hmem
  refine ⟨⟨hbegins, hlatest⟩, by decide +kernel, ?_⟩
  obtain ⟨_, _, first, -, -, -, -, -, -, hlast⟩ :=
    numbered_by_changes firstNumbers before since event key request hbegins hlatest
  refine ⟨first, fun x hx => (hlast x hx).trans ?_⟩
  have hcount : (s.heardDuring since).countP
      (Hearing.isChangeOf (Path.normalize request.uriPath)) = 2 := by
    decide +kernel
  rw [← hcount]

/-! ## Changes that cannot be sent -/

/-- A representation whose name is too long to be sent. -/
def unsendable : Representation := { etag? := some (List.replicate 9 0) }

/-- A representation with too long an entity tag cannot be written. -/
theorem fault?_write_unsendable (m : Message) : (unsendable.write m).fault?.isSome = true := by
  have hlong : (OptionValue.octets (List.replicate 9 0)).validateFor .etag ≠ .ok () := by decide
  have hname : (m.addEtag (List.replicate 9 0)).fault?.isSome = true := by
    unfold Message.addEtag Message.addOption
    split
    · rfl
    · split
      · rfl
      · next hok => exact absurd hok hlong
  exact Edit.isSome_fault?_andThen
    (Edit.isSome_fault?_andThen (Edit.isSome_fault?_andThen hname _) _) _

/-- So nobody is sent a notification of it. -/
theorem notificationsOf_unsendable (peer : Endpoint) (type : MessageType) (token : Token)
    (number : SequenceNumber) :
    notificationsOf peer (Notification.ofState type token number unsendable []) = [] := by
  have hfault : (Notification.ofState type token number unsendable []).fault?.isSome = true := by
    unfold Notification.ofState
    rw [if_neg (by decide)]
    unfold Edit.andThen
    split
    · exact fault?_write_unsendable _
    · next h => rw [h]; rfl
  unfold notificationsOf
  split
  · next hnone =>
    rw [hnone] at hfault
    cases hfault
  · rfl

/-- One resource at one path with one observer. -/
def watched (state : Option UInt16 → Except Failure Representation) (renders : Nat)
    (number : SequenceNumber) : Subscriptions where
  firstNumbers := { value := fun _ => .ofNat 0, drawn := 1 }
  resources := [{ confirmable := false, state, renders, listeners :=
    ⟨1, [0], ⟨[(0, [])], by decide⟩⟩ }]
  attached := ⟨[("temp", 0)], by decide⟩
  watchers := [⟨0, 0, "temp"⟩]
  entries := ⟨[(⟨⟨1⟩, ⟨[1], by decide⟩⟩, ⟨"temp", [], none, number, none⟩)], by simp⟩
  byPath := ⟨[("temp", [⟨⟨1⟩, ⟨[1], by decide⟩⟩])], by simp⟩

/-- A change is rendered and numbered. -/
theorem step_watched (r : Representation) (renders : Nat) (number : SequenceNumber) :
    (watched (fun _ => .ok r) renders number).step (.announce 0 (.changed none)) =
      watched (fun _ => .ok r) (renders + 1) number.next := rfl

/-- A change is published under the new number. -/
theorem published_watched (r : Representation) (renders : Nat) (number : SequenceNumber) :
    (watched (fun _ => .ok r) renders number).published (.announce 0 (.changed none)) =
      notificationsOf ⟨1⟩
        (Notification.ofState .nonConfirmable ⟨[1], by decide⟩ number.next r []) := by
  show ((_ ++ []) ++ []) ++ [] = _
  rw [List.append_nil, List.append_nil, List.append_nil]
  rfl

/-- Changes that cannot be sent are counted all the same. -/
theorem run_unsendable (n renders : Nat) (number : SequenceNumber) :
    (watched (fun _ => .ok unsendable) renders number).run
        (List.replicate n (.announce 0 (.changed none))) =
      watched (fun _ => .ok unsendable) (renders + n) (number.after n) ∧
    (watched (fun _ => .ok unsendable) renders number).publishedDuring
        (List.replicate n (.announce 0 (.changed none))) = [] := by
  induction n generalizing renders number with
  | zero => exact ⟨by rw [SequenceNumber.after_zero]; rfl, rfl⟩
  | succ n ih =>
    obtain ⟨hrun, hpublished⟩ := ih (renders + 1) number.next
    rw [List.replicate_succ, run, publishedDuring, step_watched, published_watched,
      notificationsOf_unsendable]
    refine ⟨?_, hpublished⟩
    have hnumber : number.next.after n = number.after (n + 1) := by
      rw [← number.after_zero, SequenceNumber.next_after, SequenceNumber.after_after,
        number.after_zero, Nat.zero_add, Nat.add_comm]
    rw [hrun, hnumber, Nat.add_right_comm, Nat.add_assoc]

/-- **Half the circle is too far.**  A notification is followed by `2 ^ 23 - 1` changes that cannot
be sent, and by one that can.  The two notifications are published one after the other, and the
later one does not count as the fresher. -/
theorem not_fresher_after_half_the_circle :
    let options := (Options.empty.add .observe (.unsigned 0)).add .uriPath (.text "temp")
    let token : Token := ⟨[1], by decide⟩
    let request : Message :=
      { type := .confirmable, code := .request .get, id := 9, token, options }
    let answer : Message := { Message.response .acknowledgement .content with token }
    let state (r : Representation) : Event := .modify 0 fun x => { x with state := fun _ => .ok r }
    let changed : Event := .announce 0 (.changed none)
    let before : List Event :=
      [.add { confirmable := false, state := fun _ => .ok {} }, .attach "/temp" 0]
    let event : Event := .send ⟨1⟩ answer (some request)
    let since := [changed, state unsendable] ++ List.replicate (2 ^ 23 - 1) changed ++
      [state {}, changed]
    let s := run { firstNumbers := .constant (.ofNat 0) } (before ++ [event])
    ∃ note note' number number', s.publishedDuring since = [note, note'] ∧
      note.message.observed? = some number ∧ note'.message.observed? = some number' ∧
      ∀ elapsed ≤ SequenceNumber.freshnessWindow, number'.isFresherThan number elapsed = false := by
  intro options token request answer state changed before event since s
  have hpath : Path.normalize "/temp" = "temp" := by decide +kernel
  have hpath' : Path.normalize request.uriPath = "temp" := by decide +kernel
  have hasks : answer.isResponse ∧ asksToObserve request 0 := by decide +kernel
  have hbefore : run { firstNumbers := .constant (.ofNat 0) } before =
      { watched (fun _ => .ok {}) 0 (.ofNat 0) with
        firstNumbers := .constant (.ofNat 0), entries := .empty, byPath := .empty } := by
    simp only [before, run, step, attach, hpath]
    rfl
  have hs : s = watched (fun _ => .ok {}) 0 (.ofNat 0) := by
    show run { firstNumbers := .constant (.ofNat 0) } (before ++ [event]) = _
    rw [run_append, hbefore]
    simp only [run, step, event, send]
    rw [if_pos hasks, hpath', if_pos (by decide +kernel)]
    split <;> rfl
  have hone : (SequenceNumber.ofNat 0).next = .ofNat 1 := rfl
  have hsilent (r r' : Representation) (renders : Nat) (number : SequenceNumber) :
      (watched (fun _ => .ok r) renders number).step (state r') =
        watched (fun _ => .ok r') renders number := rfl
  obtain ⟨hrun, hnone⟩ := run_unsendable (2 ^ 23 - 1) 1 (.ofNat 1)
  have hlast : ((SequenceNumber.ofNat 1).after (2 ^ 23 - 1)).next =
      (SequenceNumber.ofNat 1).after (2 ^ 23) :=
    SequenceNumber.next_after _ _
  have hbuilt (number : SequenceNumber)
      (hfault : (Notification.ofState .nonConfirmable token number {} []).fault? = none) :
      ∃ note : Notification, note.message.observed? = some number ∧
        notificationsOf ⟨1⟩ (Notification.ofState .nonConfirmable token number {} []) = [note] := by
    refine ⟨⟨⟨1⟩, _⟩, Notification.observed?_ofState .nonConfirmable token number {} [], ?_⟩
    rw [notificationsOf, hfault]
  obtain ⟨note, hnumber, hnote⟩ := hbuilt (.ofNat 1) (by decide +kernel)
  obtain ⟨note', hnumber', hnote'⟩ := hbuilt ((SequenceNumber.ofNat 1).after (2 ^ 23))
    (by decide +kernel)
  refine ⟨note, note', _, _, ?_, hnumber, hnumber', fun elapsed =>
    SequenceNumber.not_isFresherThan_after_half _⟩
  rw [publishedDuring_append, publishedDuring_append, run_append, hs]
  simp only [publishedDuring, run, changed, step_watched, published_watched, hsilent, hone]
  rw [hnone, hrun, hsilent, published_watched, hlast, hnote, hnote']
  rfl

end Subscriptions

end Coap
