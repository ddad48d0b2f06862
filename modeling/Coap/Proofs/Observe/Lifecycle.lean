/-
# The life of a subscription

A subscription begins with the successful answer to a request to observe, and the latest such
answer says what is observed.  It ends when the client takes it back, when a later request to
observe is refused, when its latest notification is rejected or never acknowledged, when the
state can no longer be rendered for it, and when the resource is gone.  Nothing else begins or
ends it, so that what has happened since the latest answer tells whether it still exists.
-/
import Coap.Proofs.LastEvent
import Coap.Proofs.Observe.Terms
import Mathlib.Data.List.Infix

namespace Coap.Subscriptions

variable {s s' : Subscriptions} {key other : ConversationKey} {x : Terms} {path : String}
  {id : ResourceId} {peer : Endpoint} {m request : Message}

/-! ## What begins and what ends a subscription -/

/-- An event is the successful answer to a request to observe what is attached at a path. -/
structure Begins (s : Subscriptions) (key : ConversationKey) (request : Message) (event : Event) :
    Prop where
  answers : ∃ m, event = .send key.peer m (some request) ∧ m.token = key.token ∧ m.isResponse ∧
    m.isSuccess
  asks : asksToObserve request 0
  observable : s.isObservable request.uriPath

/-- An event ends a subscription. -/
inductive Ends (s : Subscriptions) (key : ConversationKey) (x : Terms) : Event → Prop
  /-- The client takes it back. -/
  | cancelled (m : Message) : asksToObserve m 1 → m.token = key.token →
    Ends s key x (.receive key.peer m)
  /-- A request to observe is answered in another way. -/
  | refused (m request : Message) : m.isResponse → m.token = key.token →
      asksToObserve request 0 → ¬ (m.isSuccess ∧ s.isObservable request.uriPath) →
      Ends s key x (.send key.peer m (some request))
  /-- The client rejects the latest notification. -/
  | rejected (m : Message) : m.type = .reset → m.isEmpty → x.lastId? = some m.id →
      Ends s key x (.receive key.peer m)
  /-- The exchange of the latest notification has failed. -/
  | failed (event : ExchangeEvent) : event.peer = key.peer → event.token = key.token →
      (event.outcome = .reset ∨ ∃ n, event.outcome = .timedOut n) → x.lastId? = some event.id →
      Ends s key x (.settle event)
  /-- The resource is gone or cannot be rendered. -/
  | lost (event : Event) (h : Hearing) : h ∈ s.heard event → h.Costs x → Ends s key x event

/-- The ID that an event records under a key. -/
def recordedBy? (key : ConversationKey) : Event → Option MessageId
  | .recordId k id => if k = key then some id else none
  | _ => none

/-- No two subscriptions of a peer have the same ID recorded. -/
def DistinctIds (s : Subscriptions) : Prop :=
  ∀ k k' x x' id, s.terms? k = some x → s.terms? k' = some x' → k.peer = k'.peer →
    x.lastId? = some id → x'.lastId? = some id → k = k'

/-- Whether the recorded IDs are distinct can be read off the entries. -/
theorem distinctIds_iff : s.DistinctIds ↔ ∀ e ∈ s.entries.entries, ∀ e' ∈ s.entries.entries,
    e.1.peer = e'.1.peer → e.2.lastId? ≠ none → e.2.lastId? = e'.2.lastId? → e.1 = e'.1 := by
  constructor
  · rintro h ⟨k, y⟩ hmem ⟨k', y'⟩ hmem' hpeer hsome hsame
    obtain ⟨id, hid⟩ := Option.ne_none_iff_exists'.mp hsome
    exact h k k' _ _ id (terms?_of_get? (Table.mem_entries_iff.mp hmem))
      (terms?_of_get? (Table.mem_entries_iff.mp hmem')) hpeer hid (hsame.symm.trans hid)
  · intro h k k' x x' id hx hx' hpeer hid hid'
    obtain ⟨y, hy, rfl⟩ := exists_of_terms? hx
    obtain ⟨y', hy', rfl⟩ := exists_of_terms? hx'
    have hsome : y.lastId? ≠ none := by
      rw [show y.lastId? = some id from hid]
      exact Option.some_ne_none id
    exact h (k, y) (Table.mem_entries_iff.mpr hy) (k', y') (Table.mem_entries_iff.mpr hy') hpeer
      hsome (hid.trans hid'.symm)

/-- Hence it can be computed. -/
instance (s : Subscriptions) : Decidable s.DistinctIds := decidable_of_iff _ distinctIds_iff.symm

/-! ## Steps -/

/-- A failed exchange ends the subscription whose latest ID it has. -/
theorem ends_settle_iff {event : ExchangeEvent} : s.Ends key x (.settle event) ↔
    (⟨event.peer, event.token⟩ : ConversationKey) = key ∧ event.outcome.failure? ≠ none ∧
      x.lastId? = some event.id := by
  constructor
  · rintro (_ | _ | _ | ⟨_, hpeer, htoken, hfailed, hid⟩ | ⟨_, _, hheard, -⟩)
    · refine ⟨by rw [hpeer, htoken], ?_, hid⟩
      rcases hfailed with hreset | ⟨n, htimedOut⟩
      · rw [hreset]
        exact Option.some_ne_none _
      · rw [htimedOut]
        exact Option.some_ne_none _
    · exact absurd hheard List.not_mem_nil
  · rintro ⟨rfl, hfailed, hid⟩
    refine .failed event rfl rfl ?_ hid
    cases houtcome : event.outcome with
    | acknowledged => exact absurd (by rw [houtcome]; rfl) hfailed
    | reset => exact .inl rfl
    | timedOut n => exact .inr ⟨n, rfl⟩

/-- A subscription outlives the end of an exchange unless this ends it. -/
theorem terms?_settle (s : Subscriptions) (event : ExchangeEvent) :
    (s.settle event).terms? key = some x ↔
      s.terms? key = some x ∧ ¬ s.Ends key x (.settle event) := by
  rw [ends_settle_iff]
  unfold settle
  split
  · next hnone => simp [hnone]
  · next hfailure =>
    simp only
    split
    · next y hy =>
      split
      · next hid =>
        rw [terms?_remove]
        by_cases hkey : (⟨event.peer, event.token⟩ : ConversationKey) = key
        · subst hkey
          rw [if_pos rfl, terms?_of_get? hy]
          refine iff_of_false (fun hnone => by cases hnone) ?_
          rintro ⟨hx, hnot⟩
          cases hx
          exact hnot ⟨rfl, by simp [hfailure], hid⟩
        · simp [hkey]
      · next hid =>
        refine ⟨fun hx => ⟨hx, ?_⟩, And.left⟩
        rintro ⟨rfl, -, hlast⟩
        rw [terms?_of_get? hy] at hx
        cases hx
        exact hid hlast
    · next hnone =>
      refine ⟨fun hx => ⟨hx, ?_⟩, And.left⟩
      rintro ⟨rfl, -⟩
      simp [terms?, hnone] at hx

/-- A message ends a subscription if it deregisters or if it rejects the latest notification. -/
theorem ends_receive_iff : s.Ends key x (.receive peer m) ↔
    peer = key.peer ∧ (asksToObserve m 1 ∧ m.token = key.token ∨
      m.type = .reset ∧ m.isEmpty ∧ x.lastId? = some m.id) := by
  constructor
  · rintro (⟨_, hasks, htoken⟩ | _ | ⟨_, hreset, hempty, hid⟩ | _ | ⟨_, _, hheard, -⟩)
    · exact ⟨rfl, .inl ⟨hasks, htoken⟩⟩
    · exact ⟨rfl, .inr ⟨hreset, hempty, hid⟩⟩
    · exact absurd hheard List.not_mem_nil
  · rintro ⟨rfl, ⟨hasks, htoken⟩ | ⟨hreset, hempty, hid⟩⟩
    · exact .cancelled m hasks htoken
    · exact .rejected m hreset hempty hid

/-- A message that asks to observe is not empty. -/
theorem not_isEmpty_of_asksToObserve {n : Nat} (h : asksToObserve m n) : ¬ m.isEmpty := by
  apply Message.not_isEmpty_of_isRequest
  simp only [asksToObserve, Bool.and_eq_true, beq_iff_eq] at h
  exact Option.isSome_of_eq_some h.1

/-- Whose latest notification has an ID is found by it, if there is no other. -/
theorem findById?_eq_some_iff (hids : s.DistinctIds) {id : MessageId} :
    s.findById? peer id = some key ↔
      key.peer = peer ∧ ∃ x, s.terms? key = some x ∧ x.lastId? = some id := by
  have hentry {k : ConversationKey} {y : Subscription}
      (hmem : (k, y) ∈ s.entries.entries) : s.terms? k = some y.terms :=
    terms?_of_get? (Table.mem_entries_iff.mp hmem)
  unfold findById?
  constructor
  · intro hfound
    obtain ⟨⟨k, y⟩, hfind, rfl⟩ := Option.map_eq_some_iff.mp hfound
    have hlast := List.find?_some hfind
    simp only [Bool.and_eq_true, beq_iff_eq] at hlast
    exact ⟨hlast.1, y.terms, hentry (List.mem_of_find?_eq_some hfind), hlast.2⟩
  · rintro ⟨rfl, x, hx, hlast⟩
    obtain ⟨y, hy, rfl⟩ := exists_of_terms? hx
    have hmem := Table.mem_entries_iff.mpr hy
    cases hfind : s.entries.entries.find? fun e =>
        e.1.peer == key.peer && e.2.lastId? == some id with
    | none =>
      have hnot := List.find?_eq_none.mp hfind (key, y) hmem
      simp only [Bool.and_eq_true, beq_iff_eq, true_and] at hnot
      exact absurd hlast hnot
    | some e =>
      obtain ⟨k, y'⟩ := e
      have hfound := List.find?_some hfind
      simp only [Bool.and_eq_true, beq_iff_eq] at hfound
      have hsame : k = key := hids k key _ _ id (hentry (List.mem_of_find?_eq_some hfind)) hx
        hfound.1 hfound.2 hlast
      rw [Option.map_some, hsame]

/-- All others outlive the removal of one. -/
theorem terms?_remove_eq_some_iff :
    (s.remove other).terms? key = some x ↔ s.terms? key = some x ∧ other ≠ key := by
  rw [terms?_remove]
  by_cases hkey : other = key <;> simp [hkey]

/-- A subscription outlives a message that comes in unless this ends it. -/
theorem terms?_receive (hids : s.DistinctIds) (peer : Endpoint) (m : Message) :
    (s.receive peer m).2.terms? key = some x ↔
      s.terms? key = some x ∧ ¬ s.Ends key x (.receive peer m) := by
  rw [ends_receive_iff]
  unfold receive
  split
  · next hreset =>
    have hnot : ¬ asksToObserve m 1 := fun hasks => not_isEmpty_of_asksToObserve hasks hreset.2
    split
    · next found hfound =>
      rw [terms?_remove_eq_some_iff]
      obtain ⟨hpeer, y, hy, hlast⟩ := (findById?_eq_some_iff hids).mp hfound
      refine and_congr_right fun hx => not_congr ⟨?_, ?_⟩
      · rintro rfl
        cases Option.some.inj (hx.symm.trans hy)
        exact ⟨hpeer.symm, .inr ⟨hreset.1, hreset.2, hlast⟩⟩
      · -- no other subscription of the peer has recorded the same ID
        rintro ⟨rfl, ⟨hasks, -⟩ | ⟨-, -, hid⟩⟩
        · exact absurd hasks hnot
        · exact hids found key y x m.id hy hx hpeer hlast hid
    · next hnone =>
      refine ⟨fun hx => ⟨hx, ?_⟩, And.left⟩
      rintro ⟨rfl, ⟨hasks, -⟩ | ⟨-, -, hid⟩⟩
      · exact absurd hasks hnot
      · have hfound := (findById?_eq_some_iff hids).mpr ⟨rfl, x, hx, hid⟩
        rw [hnone] at hfound
        cases hfound
  · next hother =>
    split
    · next hasks =>
      rw [terms?_remove_eq_some_iff]
      refine and_congr_right fun hx => not_congr ⟨?_, ?_⟩
      · rintro rfl
        exact ⟨rfl, .inl ⟨hasks, rfl⟩⟩
      · rintro ⟨rfl, ⟨-, htoken⟩ | ⟨hreset, hempty, -⟩⟩
        · rw [htoken]
        · exact absurd ⟨hreset, hempty⟩ hother
    · next hnot =>
      refine ⟨fun hx => ⟨hx, ?_⟩, And.left⟩
      rintro ⟨rfl, ⟨hasks, -⟩ | ⟨hreset, hempty, -⟩⟩
      · exact hnot hasks
      · exact hother ⟨hreset, hempty⟩

/-- A registration that is not accepted ends the subscription that was there. -/
theorem ends_send_iff {request? : Option Message} : s.Ends key x (.send peer m request?) ↔
    ∃ request, request? = some request ∧ (⟨peer, m.token⟩ : ConversationKey) = key ∧
      (m.isResponse ∧ asksToObserve request 0) ∧
      ¬ (m.isSuccess ∧ s.isObservable request.uriPath) := by
  constructor
  · rintro (_ | ⟨_, request, hresponse, htoken, hasks, hnot⟩ | _ | _ | ⟨_, _, hheard, -⟩)
    · exact ⟨request, rfl, by rw [htoken], ⟨hresponse, hasks⟩, hnot⟩
    · exact absurd hheard List.not_mem_nil
  · rintro ⟨request, rfl, rfl, ⟨hresponse, hasks⟩, hnot⟩
    exact .refused m request hresponse rfl hasks hnot

/-- A registration that is accepted begins a subscription. -/
theorem begins_send_iff {request? : Option Message} :
    s.Begins key request (.send peer m request?) ↔
      request? = some request ∧ (⟨peer, m.token⟩ : ConversationKey) = key ∧
        (m.isResponse ∧ asksToObserve request 0) ∧
        m.isSuccess ∧ s.isObservable request.uriPath := by
  constructor
  · rintro ⟨⟨_, hevent, htoken, hresponse, hsuccess⟩, hasks, hobservable⟩
    cases hevent
    exact ⟨rfl, by rw [htoken], ⟨hresponse, hasks⟩, hsuccess, hobservable⟩
  · rintro ⟨rfl, rfl, ⟨hresponse, hasks⟩, hsuccess, hobservable⟩
    exact ⟨⟨m, rfl, rfl, hresponse, hsuccess⟩, hasks, hobservable⟩

/-- Whoever answers a request to observe makes a subscription or ends it. -/
theorem terms?_send_some (s : Subscriptions) (peer : Endpoint) (m request : Message)
    (key : ConversationKey) :
    (s.send peer m (some request)).2.terms? key =
      if m.isResponse ∧ asksToObserve request 0 then
        if m.isSuccess ∧ s.isObservable request.uriPath then
          if (⟨peer, m.token⟩ : ConversationKey) = key then some (.ofRequest request)
          else s.terms? key
        else if (⟨peer, m.token⟩ : ConversationKey) = key then none else s.terms? key
      else s.terms? key := by
  unfold send isObservable
  simp only
  split
  · split
    · split
      · exact terms?_register ..
      · exact terms?_register ..
    · exact terms?_remove ..
  · rfl

/-- A subscription outlives a message that goes out unless this ends it or begins anew. -/
theorem terms?_send (peer : Endpoint) (m : Message) (request? : Option Message)
    (hnot : ∀ request, ¬ s.Begins key request (.send peer m request?)) :
    (s.send peer m request?).2.terms? key = some x ↔
      s.terms? key = some x ∧ ¬ s.Ends key x (.send peer m request?) := by
  rw [ends_send_iff]
  cases request? with
  | none => simp [send]
  | some request =>
    have hnot := mt begins_send_iff.mpr (hnot request)
    rw [terms?_send_some]
    by_cases hanswers : m.isResponse ∧ asksToObserve request 0
    · by_cases hsuccess : m.isSuccess ∧ s.isObservable request.uriPath
      · have hkey : (⟨peer, m.token⟩ : ConversationKey) ≠ key := fun hkey =>
          hnot ⟨rfl, hkey, hanswers, hsuccess⟩
        simp [hanswers, hsuccess, hkey]
      · by_cases hkey : (⟨peer, m.token⟩ : ConversationKey) = key
        · simp [hanswers, hsuccess, hkey]
        · simp [hanswers, hsuccess, hkey]
    · rw [if_neg hanswers]
      refine ⟨fun hx => ⟨hx, ?_⟩, And.left⟩
      rintro ⟨_, heq, -, hanswers', -⟩
      cases heq
      exact hanswers hanswers'

/-- What begins has the terms of its request. -/
theorem terms?_step_of_begins {event : Event} (h : s.Begins key request event) :
    (s.step event).terms? key = some (.ofRequest request) := by
  obtain ⟨⟨m, rfl, htoken, hresponse, hsuccess⟩, hasks, hobservable⟩ := h
  have hkey : (⟨key.peer, m.token⟩ : ConversationKey) = key := by rw [htoken]
  rw [step, terms?_send_some, if_pos ⟨hresponse, hasks⟩, if_pos ⟨hsuccess, hobservable⟩,
    if_pos hkey]

/-- Resources are attached without observers. -/
theorem attach_entries (s : Subscriptions) (path : String) (id : ResourceId) :
    (s.attach path id).entries = s.entries := by
  unfold attach
  split <;> rfl

/-- Many resources are attached without observers. -/
theorem entries_attachAll (s : Subscriptions) (resources : List (String × Resource)) :
    (s.attachAll resources).entries = s.entries := by
  induction resources generalizing s with
  | nil => rfl
  | cons x rest ih =>
    refine (ih _).trans ?_
    exact attach_entries _ x.1 _

/-- Whether an event passes a message of the layer, or tells it of an exchange. -/
def Event.isInternal : Event → Bool
  | .receive .. | .send .. | .settle .. => false
  | _ => true

/-- Other events end a subscription only by what is heard because of them. -/
theorem not_ends_iff {event : Event} (hinternal : event.isInternal) :
    ¬ s.Ends key x event ↔ ∀ h ∈ s.heard event, ¬ h.Costs x := by
  constructor
  · intro hlasts h hmem hcosts
    exact hlasts (.lost event h hmem hcosts)
  · rintro hspared (_ | _ | _ | _ | ⟨_, h, hmem, hcosts⟩)
    · cases hinternal
    · cases hinternal
    · cases hinternal
    · cases hinternal
    · exact hspared h hmem hcosts

/-- **What one event does to a subscription** unless it begins one: it ends it, or leaves it alone
but for the ID of the latest notification. -/
theorem terms?_step (h : s.Consistent) (hids : s.DistinctIds) {event : Event}
    (hnot : ∀ request, ¬ s.Begins key request event) :
    (s.step event).terms? key = some x ↔
      ∃ before, s.terms? key = some before ∧ ¬ s.Ends key before event ∧
        x = before.note (recordedBy? key event) := by
  -- all but the recording of an ID leave the subscription as it is, or end it
  have hunnoted (hnone : recordedBy? key event = none)
      (hstep : (s.step event).terms? key = some x ↔
        s.terms? key = some x ∧ ¬ s.Ends key x event) :
      (s.step event).terms? key = some x ↔
        ∃ before, s.terms? key = some before ∧ ¬ s.Ends key before event ∧
          x = before.note (recordedBy? key event) := by
    rw [hstep, hnone]
    constructor
    · rintro ⟨hx, hlasts⟩
      exact ⟨x, hx, hlasts, rfl⟩
    · rintro ⟨_, hx, hlasts, rfl⟩
      exact ⟨hx, hlasts⟩
  have hidle (hinternal : event.isInternal) (hunheard : s.heard event = [])
      (hsame : (s.step event).terms? key = s.terms? key) :
      (s.step event).terms? key = some x ↔
        s.terms? key = some x ∧ ¬ s.Ends key x event := by
    rw [hsame, not_ends_iff hinternal, hunheard]
    exact ⟨fun hx => ⟨hx, nofun⟩, And.left⟩
  cases event with
  | add r => exact hunnoted rfl (hidle rfl rfl rfl)
  | attach path id =>
    exact hunnoted rfl (hidle rfl rfl (terms?_congr (by rw [step, attach_entries])))
  | modify id f => exact hunnoted rfl (hidle rfl rfl rfl)
  | receive peer m => exact hunnoted rfl (terms?_receive hids peer m)
  | send peer m request? => exact hunnoted rfl (terms?_send peer m request? hnot)
  | settle event => exact hunnoted rfl (terms?_settle s event)
  | recordId other id =>
    have hlasts (before : Terms) : ¬ s.Ends key before (.recordId other id) :=
      (not_ends_iff rfl).mpr nofun
    rw [step, terms?_recordId, recordedBy?]
    by_cases hkey : other = key
    · rw [if_pos hkey, if_pos hkey, Option.map_eq_some_iff]
      constructor
      · rintro ⟨before, hx, rfl⟩
        exact ⟨before, hx, hlasts before, rfl⟩
      · rintro ⟨before, hx, -, rfl⟩
        exact ⟨before, hx, rfl⟩
    · rw [if_neg hkey, if_neg hkey]
      constructor
      · intro hx
        exact ⟨x, hx, hlasts x, rfl⟩
      · rintro ⟨_, hx, -, rfl⟩
        exact hx
  | announce id event =>
    refine hunnoted rfl ?_
    rw [not_ends_iff rfl]
    exact terms?_hearAll _ (h.modifyResource _ _)
  | hear w event =>
    refine hunnoted rfl ?_
    rw [not_ends_iff rfl]
    exact terms?_hear w [event] h

/-! ## Histories -/

/-- A run goes on where another one ended. -/
theorem run_append (s : Subscriptions) (before after : List Event) :
    s.run (before ++ after) = (s.run before).run after := by
  induction before generalizing s with
  | nil => rfl
  | cons e rest ih => exact ih _

/-- The terms since a request to observe was answered: the latest ID that was recorded
is that of the latest notification. -/
def termsSince (key : ConversationKey) (request : Message) (since : List Event) : Terms :=
  (Terms.ofRequest request).note (since.filterMap (recordedBy? key)).getLast?

/-- The successful answer to a request to observe is the latest one in a history, and nothing has
ended the subscription since. -/
structure Lasts (s : Subscriptions) (key : ConversationKey) (request : Message)
    (before : List Event) (event : Event) (since : List Event) : Prop where
  begins : (s.run before).Begins key request event
  latest : ∀ mid e rest, since = mid ++ e :: rest →
    ∀ request', ¬ (s.run (before ++ event :: mid)).Begins key request' e
  undisturbed : ∀ mid e rest, since = mid ++ e :: rest →
    ¬ (s.run (before ++ event :: mid)).Ends key (termsSince key request mid) e

/-- An event begins a subscription for one request at most. -/
theorem Begins.unique {request' : Message} {event : Event} (h : s.Begins key request event)
    (h' : s.Begins key request' event) : request = request' := by
  obtain ⟨_, rfl, -⟩ := h.answers
  obtain ⟨_, hevent, -⟩ := h'.answers
  cases hevent
  rfl

/-- The terms follow the IDs that are recorded. -/
theorem termsSince_append (key : ConversationKey) (request : Message) (since : List Event)
    (e : Event) : termsSince key request (since ++ [e]) =
      (termsSince key request since).note (recordedBy? key e) := by
  rw [termsSince, termsSince, List.filterMap_append]
  cases he : recordedBy? key e with
  | none => simp [he, Terms.note]
  | some id => simp [he, Terms.note]

/-- Nothing that happens next changes what has lasted so far. -/
theorem lasts_append {before since : List Event} {event e : Event} :
    s.Lasts key request before event (since ++ [e]) ↔
      s.Lasts key request before event since ∧
        (∀ request', ¬ (s.run (before ++ event :: since)).Begins key request' e) ∧
        ¬ (s.run (before ++ event :: since)).Ends key (termsSince key request since) e := by
  constructor
  · intro h
    have hlatest := forall_before_concat.mp h.latest
    have hundisturbed := forall_before_concat.mp h.undisturbed
    exact ⟨⟨h.begins, hlatest.1, hundisturbed.1⟩, hlatest.2, hundisturbed.2⟩
  · rintro ⟨h, hlatest, hundisturbed⟩
    exact ⟨h.begins, forall_before_concat.mpr ⟨h.latest, hlatest⟩,
      forall_before_concat.mpr ⟨h.undisturbed, hundisturbed⟩⟩

/-- What exists under a key after a history is what has lasted since the latest successful answer
to a request to observe. -/
theorem terms?_run_iff (hs : s.Consistent) (hnone : s.terms? key = none)
    {events : List Event}
    (hids : ∀ before after, events = before ++ after → (s.run before).DistinctIds) :
    (s.run events).terms? key = some x ↔
      ∃ before event since request, events = before ++ event :: since ∧
        s.Lasts key request before event since ∧ x = termsSince key request since := by
  -- the induction adds one event at the end of the history
  induction events using List.reverseRecOn generalizing x with
  | nil =>
    rw [run, hnone]
    refine iff_of_false nofun ?_
    rintro ⟨before, event, since, -, heq, -⟩
    cases before <;> cases heq
  | append_singleton events e ih =>
    have hids' : ∀ before after, events = before ++ after → (s.run before).DistinctIds := by
      rintro before after rfl
      exact hids before (after ++ [e]) (by simp)
    have hnow : (s.run events).DistinctIds := hids events [e] rfl
    rw [show s.run (events ++ [e]) = (s.run events).step e from run_append s events [e]]
    by_cases hbegins : ∃ request, (s.run events).Begins key request e
    · obtain ⟨request, hbegins⟩ := hbegins
      rw [terms?_step_of_begins hbegins]
      constructor
      · intro hx
        refine ⟨events, e, [], request, rfl, ⟨hbegins, ?_, ?_⟩, (Option.some.inj hx).symm⟩
        · intro mid _ _ heq
          cases mid <;> cases heq
        · intro mid _ _ heq
          cases mid <;> cases heq
      · rintro ⟨before, event, since, request', heq, hlasts, rfl⟩
        rcases concat_eq_append_cons heq with ⟨rfl, rfl, rfl⟩ | ⟨since, rfl, rfl⟩
        · rw [hbegins.unique hlasts.begins]
          rfl
        · exact absurd hbegins ((lasts_append.mp hlasts).2.1 request)
    · -- what lasts now has lasted before, and this event does not end it
      have hnot (request : Message) : ¬ (s.run events).Begins key request e := fun h =>
        hbegins ⟨request, h⟩
      rw [terms?_step (hs.run events) hnow hnot]
      constructor
      · rintro ⟨y, hy, hundisturbed, rfl⟩
        obtain ⟨before, event, since, request, rfl, hlasts, rfl⟩ := (ih hids').mp hy
        refine ⟨before, event, since ++ [e], request, by simp, ?_,
          (termsSince_append key request since e).symm⟩
        exact lasts_append.mpr ⟨hlasts, hnot, hundisturbed⟩
      · rintro ⟨before, event, since, request, heq, hlasts, rfl⟩
        rcases concat_eq_append_cons heq with ⟨rfl, rfl, rfl⟩ | ⟨since, rfl, rfl⟩
        · exact absurd hlasts.begins (hnot request)
        · obtain ⟨hlasts, -, hundisturbed⟩ := lasts_append.mp hlasts
          exact ⟨_, (ih hids').mpr ⟨before, event, since, request, rfl, hlasts, rfl⟩, hundisturbed,
            termsSince_append ..⟩

/-! ## The first sequence number -/

/-- A number is its own encoding. -/
theorem toNat_toUInt32 (number : SequenceNumber) : number.toUInt32.toNat = number.toNat := by
  rw [SequenceNumber.toUInt32, UInt32.toNat_ofNat_of_lt' (Nat.lt_trans number.toNat_lt (by decide))]

/-- Every sequence number is a value of the option. -/
theorem setObserve_eq (hfull : ¬ m.isEmpty) (number : SequenceNumber) :
    m.setObserve number =
      ⟨{ m with
        options := (m.options.remove .observe).add .observe (.unsigned number.toUInt32) },
        none⟩ := by
  have hvalid : (OptionValue.unsigned number.toUInt32).validateFor .observe = .ok () := by
    rw [OptionValue.validateFor_unsigned_iff
      (d := ⟨.observe, "Observe", .unsigned, 0, 3, false, none⟩) rfl rfl rfl, toNat_toUInt32]
    exact ⟨number.toNat_lt, nofun, fun h => by rcases h.1 with h | h <;> cases h⟩
  exact Message.setUnsigned_eq hfull hvalid

/-- Every sequence number can be set. -/
theorem observed?_setObserve (hfull : ¬ m.isEmpty) (number : SequenceNumber) :
    ∃ m', (m.setObserve number).toExcept = .ok m' ∧ m'.observed? = some number := by
  refine ⟨_, by rw [setObserve_eq hfull]; rfl, ?_⟩
  let options := (m.options.remove .observe).add .observe (.unsigned number.toUInt32)
  have hset : ({ m with options } : Message).unsigned? .observe = some number.toUInt32 := by
    apply Message.unsigned?_of_values
    rw [Options.values_add, Options.values_remove, if_pos rfl, if_pos rfl, List.nil_append]
  show (({ m with options } : Message).unsigned? .observe).bind SequenceNumber.ofUInt32? =
    some number
  rw [hset, Option.bind_some]
  rw [SequenceNumber.ofUInt32?, toNat_toUInt32, if_pos number.toNat_lt]
  simp [SequenceNumber.ofNat, SequenceNumber.toNat]

/-- The answer that begins a subscription carries its first sequence number. -/
theorem send_of_begins {request? : Option Message}
    (h : s.Begins key request (.send key.peer m request?)) :
    ∃ m' number, (s.send key.peer m request?).1 = .ok m' ∧ m'.observed? = some number ∧
      (s.step (.send key.peer m request?)).number? key = some number := by
  obtain ⟨rfl, hkey, hanswers, hsuccess, hobservable⟩ := begins_send_iff.mp h
  obtain ⟨m', hset, hobserved⟩ := observed?_setObserve
    (Message.not_isEmpty_of_isResponse hanswers.1) s.firstNumbers.next.1
  let registered := s.register ⟨key.peer, m.token⟩ (Path.normalize request.uriPath) request
  have hsend : s.send key.peer m (some request) = (.ok m', registered.2) := by
    unfold send
    simp only
    rw [if_pos hanswers, if_pos ⟨hsuccess, hobservable⟩]
    have hnumber : (s.register ⟨key.peer, m.token⟩ (Path.normalize request.uriPath) request).1 =
        s.firstNumbers.next.1 := rfl
    rw [hnumber, hset]
  refine ⟨m', s.firstNumbers.next.1, by rw [hsend], hobserved, ?_⟩
  rw [number?, step, hsend, get?_register_eq, if_pos hkey]
  rfl

/-- Messages that do not answer a request to observe pass, and change nothing. -/
theorem send_of_not_answers {request? : Option Message}
    (h : ¬ ∃ request, request? = some request ∧ m.isResponse ∧ asksToObserve request 0) :
    s.send peer m request? = (.ok m, s) := by
  cases request? with
  | none => rfl
  | some request => exact if_neg fun hanswers => h ⟨request, rfl, hanswers⟩

/-- **A subscription lasts from the latest successful answer until something ends it.**  After
every history in which no two subscriptions of one peer had the same notification ID recorded:
there is a subscription under a key exactly if a request to observe what was attached at its path
was answered with success under the key, and since the latest such answer nothing has ended the
subscription.  Its path, the known representations and the format are those of the request that
was answered then, and its answer carried the first sequence number; messages that answer no
request to observe change nothing. -/
theorem subscribed_iff_lasting (firstNumbers : Draws SequenceNumber) (events : List Event)
    (hids : ∀ before after, events = before ++ after →
      (run { firstNumbers } before).DistinctIds) (key : ConversationKey) :
    let s : Subscriptions := { firstNumbers }
    ((∃ x, (s.run events).entries.get? key = some x) ↔
      ∃ before event since request, events = before ++ event :: since ∧
        s.Lasts key request before event since) ∧
    (∀ before event since request, events = before ++ event :: since →
      s.Lasts key request before event since →
      ∃ x m m' number, (s.run events).entries.get? key = some x ∧
        x.path = Path.normalize request.uriPath ∧ x.etags = request.etags ∧
        x.accept? = request.accept? ∧
        x.lastId? = (since.filterMap (recordedBy? key)).getLast? ∧
        event = .send key.peer m (some request) ∧
        ((s.run before).send key.peer m (some request)).1 = .ok m' ∧
        m'.observed? = some number ∧
        (s.run (before ++ [event])).number? key = some number) ∧
    ∀ before after peer m request?, events = before ++ .send peer m request? :: after →
      (¬ ∃ request, request? = some request ∧ m.isResponse ∧ asksToObserve request 0) →
      (s.run before).send peer m request? = (.ok m, s.run before) := by
  intro s
  have hcons : s.Consistent := .empty firstNumbers
  have hrun {x : Terms} : (s.run events).terms? key = some x ↔ _ :=
    terms?_run_iff hcons rfl hids
  refine ⟨⟨?_, ?_⟩, ?_, ?_⟩
  · rintro ⟨x, hx⟩
    obtain ⟨before, event, since, request, heq, hlasts, -⟩ := hrun.mp (terms?_of_get? hx)
    exact ⟨before, event, since, request, heq, hlasts⟩
  · rintro ⟨before, event, since, request, heq, hlasts⟩
    obtain ⟨x, hx, -⟩ :=
      exists_of_terms? (hrun.mpr ⟨before, event, since, request, heq, hlasts, rfl⟩)
    exact ⟨x, hx⟩
  · intro before event since request heq hlasts
    obtain ⟨x, hx, hterms⟩ :=
      exists_of_terms? (hrun.mpr ⟨before, event, since, request, heq, hlasts, rfl⟩)
    obtain ⟨m, rfl, -⟩ := hlasts.begins.answers
    obtain ⟨m', number, hsend, hobserved, hnumber⟩ := send_of_begins hlasts.begins
    refine ⟨x, m, m', number, hx, congrArg Terms.path hterms,
      congrArg Terms.etags hterms, congrArg Terms.accept? hterms, ?_, rfl, hsend,
      hobserved, ?_⟩
    · exact (congrArg Terms.lastId? hterms).trans (Option.or_none ..)
    · rw [run_append]
      exact hnumber
  · intro before after peer m request? _ hnot
    exact send_of_not_answers hnot

/-- A subscription lasts until its latest notification is rejected. -/
theorem subscribed_until_rejected :
    let s : Subscriptions := { firstNumbers := .constant (.ofNat 5) }
    let resource : Resource := { confirmable := false, state := fun _ => .error .notFound }
    let token : Token := ⟨[1], by decide⟩
    let key : ConversationKey := ⟨⟨1⟩, token⟩
    let options := (Options.empty.add .observe (.unsigned 0)).add .uriPath (.text "temp")
    let request : Message :=
      { type := .confirmable, code := .request .get, id := 9, token, options }
    let answer : Message := { Message.response .acknowledgement .content with token }
    let events : List Event := [.add resource, .attach "/temp" 0,
      .send ⟨1⟩ answer (some request), .recordId key 7]
    let reset : Event := .receive ⟨1⟩ { type := .reset, code := .empty, id := 7 }
    (∀ before after, events ++ [reset] = before ++ after → (s.run before).DistinctIds) ∧
      (∃ before event since request, events = before ++ event :: since ∧
        s.Lasts key request before event since) ∧
      ¬ ∃ before event since request, events ++ [reset] = before ++ event :: since ∧
        s.Lasts key request before event since := by
  intro s resource token key options request answer events reset
  have hids : ∀ before after, events ++ [reset] = before ++ after →
      (s.run before).DistinctIds := by
    intro before after heq
    have hall : ∀ before ∈ (events ++ [reset]).inits, (s.run before).DistinctIds := by
      decide +kernel
    exact hall before ((List.mem_inits before _).mpr ⟨after, heq.symm⟩)
  have hids' : ∀ before after, events = before ++ after → (s.run before).DistinctIds := by
    intro before after heq
    exact hids before (after ++ [reset]) (by rw [heq, List.append_assoc])
  have hthere : ((s.run events).entries.get? key).isSome := by decide +kernel
  have hgone : (s.run (events ++ [reset])).entries.get? key = none := by decide +kernel
  refine ⟨hids, ?_, ?_⟩
  · exact (subscribed_iff_lasting _ events hids' key).1.mp (Option.isSome_iff_exists.mp hthere)
  · intro hlasting
    obtain ⟨x, hx⟩ := (subscribed_iff_lasting _ (events ++ [reset]) hids key).1.mpr hlasting
    have hx : (s.run (events ++ [reset])).entries.get? key = some x := hx
    rw [hgone] at hx
    cases hx

end Coap.Subscriptions
