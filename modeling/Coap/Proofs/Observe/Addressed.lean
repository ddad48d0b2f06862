/-
# To whom notifications go

A notification goes to an observer, and carries the token of the request that made the
subscription.  Whoever has no subscription gets none, and does not come to have one by a
change or a removal.
-/
import Coap.Proofs.Message.Editing
import Coap.Proofs.Observe.Index

namespace Coap

/-! ## Edits of representations -/

namespace Message.SameHeader

/-- An entity tag is an option like others. -/
theorem writeEtag (r : Representation) (m : Message) :
    m.SameHeader (r.writeEtag m).message := by
  unfold Representation.writeEtag
  split
  · exact .addOption m _ _
  · exact .refl m

/-- So is an age. -/
theorem writeMaxAge (r : Representation) (m : Message) :
    m.SameHeader (r.writeMaxAge m).message := by
  unfold Representation.writeMaxAge
  split
  · split
    · exact .refl m
    · exact .setUnsigned m _ _
  · exact .refl m

/-- A format is an option like others. -/
theorem writeContentFormat (r : Representation) (m : Message) :
    m.SameHeader (r.writeContentFormat m).message := by
  unfold Representation.writeContentFormat
  split
  · exact .setUnsigned m _ _
  · exact .refl m

/-- Both validators together leave the header alone. -/
theorem writeValidators (r : Representation) (m : Message) :
    m.SameHeader (r.writeValidators m).message :=
  .andThen (writeEtag r m) (writeMaxAge r)

/-- A representation goes into options and payload. -/
theorem write (r : Representation) (m : Message) : m.SameHeader (r.write m).message :=
  .andThen (.andThen (writeValidators r m) (writeContentFormat r)) fun m => .setPayload m _

end Message.SameHeader

/-! ## Headers of notifications -/

namespace Notification

/-- A response with a status is not the empty message. -/
theorem not_isEmpty_response (type : MessageType) (status : Status) (token : Token) :
    ¬ ({ Message.response type status with token } : Message).isEmpty := by
  refine Message.not_isEmpty_of_isResponse ?_
  simp [Message.response, Message.isResponse, Code.isResponse, Code.status?]

/-- A notification without options is a response with a token. -/
theorem blank_eq (type : MessageType) (status : Status) (token : Token) :
    blank type status token = ⟨{ Message.response type status with token }, none⟩ := by
  unfold blank Message.setToken
  rw [if_neg fun h => not_isEmpty_response type status .empty h.1]

/-- It carries the token that it is given. -/
theorem token_blank (type : MessageType) (status : Status) (token : Token) :
    (blank type status token).message.token = token := by
  rw [blank_eq]

/-- What is told of a state is written into a response without content. -/
theorem sameHeader_ofState (type : MessageType) (token : Token) (number : SequenceNumber)
    (r : Representation) (etags : List Bytes) : ∃ status,
    (blank type status token).message.SameHeader
      (ofState type token number r etags).message := by
  have hnumbered (status : Status) : (blank type status token).message.SameHeader
      ((blank type status token).andThen (·.setObserve number)).message :=
    .andThen (.refl _) fun m => .setUnsigned m _ _
  unfold ofState
  split
  · exact ⟨.valid, (hnumbered _).andThen (.writeValidators r)⟩
  · exact ⟨.content, (hnumbered _).andThen (.write r)⟩

/-- So is what is told of a failure. -/
theorem sameHeader_ofFailure (type : MessageType) (token : Token) (f : Failure) :
    (blank type f.status token).message.SameHeader (ofFailure type token f).message :=
  .andThen (.refl _) fun m => .setPayload m _

/-- A notification of a state carries the token of its observer. -/
theorem token_ofState (type : MessageType) (token : Token) (number : SequenceNumber)
    (r : Representation) (etags : List Bytes) :
    (ofState type token number r etags).message.token = token := by
  obtain ⟨status, hheader⟩ := sameHeader_ofState type token number r etags
  rw [hheader.token_eq, token_blank]

/-- So does one of a failure. -/
theorem token_ofFailure (type : MessageType) (token : Token) (f : Failure) :
    (ofFailure type token f).message.token = token := by
  rw [(sameHeader_ofFailure type token f).token_eq, token_blank]

end Notification

namespace Subscriptions

variable {s : Subscriptions} {key : ConversationKey}

/-! ## Where there is no subscription -/

/-- To remove another subscription does not bring one about. -/
theorem get?_remove (hnone : s.entries.get? key = none) (other : ConversationKey) :
    (s.remove other).entries.get? key = none := by
  unfold remove
  split
  · exact hnone
  · rw [entries_unindex, Table.get?_erase, hnone, ite_self]

/-- A registration under another token or for another peer does not either. -/
theorem get?_register (hnone : s.entries.get? key = none) {other : ConversationKey}
    (hother : other ≠ key) (path : String) (request : Message) :
    (s.register other path request).2.entries.get? key = none := by
  have hget (entry : Subscription) : (s.entries.insert other entry).get? key = none := by
    rw [Table.get?_insert, if_neg hother, hnone]
  unfold register index
  simp only
  split
  · split
    · exact hget _
    · rw [entries_unindex]
      exact hget _
  · exact hget _

/-- Rendering a resource leaves the subscriptions alone. -/
theorem entries_render (s : Subscriptions) (id : ResourceId) (accept? : Option UInt16) :
    (s.render id accept?).2.entries = s.entries := by
  unfold render
  split <;> rfl

/-- A resource that was rendered before is not rendered again, and subscriptions are left alone. -/
theorem entries_renderOnce (s : Subscriptions) (id : ResourceId) (accept? : Option UInt16)
    (seen : Renderings) : (s.renderOnce id accept? seen).2.2.entries = s.entries := by
  unfold renderOnce
  split
  · rfl
  · exact entries_render s id accept?

/-- An exchange that fails makes no subscription. -/
theorem get?_settle (hnone : s.entries.get? key = none) (event : ExchangeEvent) :
    (s.settle event).entries.get? key = none := by
  unfold settle
  split
  · exact hnone
  · simp only
    split
    · split
      · exact get?_remove hnone _
      · exact hnone
    · exact hnone

/-- An ID is recorded only for a subscription that is there. -/
theorem get?_recordId (hnone : s.entries.get? key = none) (other : ConversationKey)
    (id : MessageId) : (s.recordId other id).entries.get? key = none := by
  unfold recordId Table.modify
  split
  · next x hx =>
    rw [Table.get?_insert, if_neg, hnone]
    rintro rfl
    rw [hnone] at hx
    cases hx
  · exact hnone

/-- What comes in may end a subscription and cannot make one. -/
theorem get?_receive (hnone : s.entries.get? key = none) (peer : Endpoint) (m : Message) :
    (s.receive peer m).2.entries.get? key = none := by
  unfold receive
  split
  · split
    · exact get?_remove hnone _
    · exact hnone
  · split
    · exact get?_remove hnone _
    · exact hnone

/-- The layer changes the options of a response at most. -/
theorem sameHeader_send {peer : Endpoint} {m m' : Message} {request? : Option Message}
    (h : (s.send peer m request?).1 = .ok m') : m.SameHeader m' := by
  unfold send at h
  split at h
  · exact Except.ok.inj h ▸ .refl m
  · split at h
    · simp only at h
      split at h
      · split at h
        · next hset =>
          obtain rfl := Except.ok.inj h
          rw [← Edit.message_of_toExcept hset]
          exact .setUnsigned m _ _
        · cases h
      · exact Except.ok.inj h ▸ .refl m
    · exact Except.ok.inj h ▸ .refl m

/-- Only a response makes a subscription, under its own token. -/
theorem get?_send (hnone : s.entries.get? key = none) (peer : Endpoint) (m : Message)
    (request? : Option Message)
    (hkey : m.isResponse = true → (⟨peer, m.token⟩ : ConversationKey) ≠ key) :
    (s.send peer m request?).2.entries.get? key = none := by
  unfold send
  split
  · exact hnone
  · split
    · next hasks =>
      simp only
      split
      · split <;> exact get?_register hnone (hkey hasks.1) _ _
      · exact get?_remove hnone _
    · exact hnone

/-! ## Spared observers -/

/-- There is no subscription under a key, and none of the notifications is meant for it. -/
def Spares (key : ConversationKey) (result : List Notification × Subscriptions) : Prop :=
  result.2.entries.get? key = none ∧
    ∀ n ∈ result.1, (⟨n.peer, n.message.token⟩ : ConversationKey) ≠ key

/-- Where there is no subscription and nothing is sent, the key is spared. -/
theorem Spares.nil (hnone : s.entries.get? key = none) : Spares key ([], s) :=
  ⟨hnone, by simp⟩

/-- A notification goes to the key that it is made for. -/
theorem spares_notificationsOf {other : ConversationKey} (hother : other ≠ key) {e : Edit}
    (htoken : e.message.token = other.token) :
    ∀ n ∈ notificationsOf other.peer e, (⟨n.peer, n.message.token⟩ : ConversationKey) ≠ key := by
  intro n hn
  unfold notificationsOf at hn
  split at hn
  · obtain rfl := List.mem_singleton.1 hn
    rw [htoken]
    exact hother
  · simp at hn

/-- Who has no subscription is not notified of a change, in whatever order the others are. -/
theorem spares_notifyEach (id : ResourceId) (type : MessageType) (keys : List ConversationKey) :
    ∀ (seen : Renderings) {s : Subscriptions}, s.entries.get? key = none →
      Spares key (notifyEach id type keys seen s) := by
  induction keys with
  | nil => exact fun _ _ hnone => .nil hnone
  | cons other rest ih =>
    intro seen s hnone
    unfold notifyEach
    split
    · exact ih seen hnone
    · next x hx =>
      have hother : other ≠ key := by
        rintro rfl
        rw [hnone] at hx
        cases hx
      have hrendered (numbered : Subscription) :
          ({ s with entries := s.entries.insert other numbered }.renderOnce id x.accept?
            seen).2.2.entries.get? key = none := by
        rw [entries_renderOnce, Table.get?_insert, if_neg hother, hnone]
      simp only
      split
      · obtain ⟨hleft, hrest⟩ := ih _ (hrendered _)
        refine ⟨hleft, fun n hn => ?_⟩
        rcases List.mem_append.1 hn with hn | hn
        · exact spares_notificationsOf hother (Notification.token_ofState ..) n hn
        · exact hrest n hn
      · obtain ⟨hleft, hrest⟩ := ih _ (get?_remove (hrendered _) other)
        refine ⟨hleft, fun n hn => ?_⟩
        rcases List.mem_append.1 hn with hn | hn
        · exact spares_notificationsOf hother (Notification.token_ofFailure ..) n hn
        · exact hrest n hn

/-- A change at a path spares those who do not observe. -/
theorem spares_change (hnone : s.entries.get? key = none) (path : String)
    (type? : Option MessageType) : Spares key (s.change path type?) := by
  unfold change
  split
  · exact .nil hnone
  · exact spares_notifyEach _ _ _ _ hnone

/-- Those who are dismissed were observers. -/
theorem spares_dismissEach (type : MessageType) (keys : List ConversationKey) :
    ∀ {s : Subscriptions}, s.entries.get? key = none → Spares key (dismissEach type keys s) := by
  induction keys with
  | nil => exact fun hnone => .nil hnone
  | cons other rest ih =>
    intro s hnone
    unfold dismissEach
    split
    · next hcontains =>
      have hother : other ≠ key := by
        rintro rfl
        simp [Table.contains, hnone] at hcontains
      have herased : ({ s with entries := s.entries.erase other } : Subscriptions).entries.get?
          key = none := by
        rw [Table.get?_erase, if_neg hother, hnone]
      obtain ⟨hleft, hrest⟩ := ih herased
      refine ⟨hleft, fun n hn => ?_⟩
      rcases List.mem_append.1 hn with hn | hn
      · exact spares_notificationsOf hother (Notification.token_blank ..) n hn
      · exact hrest n hn
    · exact ih hnone

/-- A resource that goes away spares those who did not observe it. -/
theorem spares_detach (hnone : s.entries.get? key = none) (path : String)
    (listener : ListenerId) : Spares key (s.detach path listener) := by
  have hdetached : ({ s with attached := s.attached.erase path, byPath := s.byPath.erase path } :
      Subscriptions).entries.get? key = none := hnone
  have hdismissed (type : MessageType) :=
    spares_dismissEach type ((s.byPath.get? path).getD []) hdetached
  unfold detach
  refine ⟨?_, (hdismissed _).2⟩
  simp only
  split <;> exact (hdismissed _).1

/-- All that a watcher hears spares those who do not observe. -/
theorem spares_hear (w : Watcher) (events : List ResourceEvent) :
    ∀ {s : Subscriptions}, s.entries.get? key = none → Spares key (hear w events s) := by
  induction events with
  | nil => exact fun hnone => .nil hnone
  | cons event rest ih =>
    intro s hnone
    cases event with
    | changed type? =>
      obtain ⟨hchanged, hfirst⟩ := spares_change hnone w.path type?
      obtain ⟨hleft, hrest⟩ := ih hchanged
      exact ⟨hleft, fun n hn => (List.mem_append.1 hn).elim (hfirst n) (hrest n)⟩
    | removed => exact spares_detach hnone w.path w.listener

/-- All watchers together spare those who do not observe. -/
theorem spares_hearAll (watchers : List Watcher) :
    ∀ {s : Subscriptions}, s.entries.get? key = none → Spares key (hearAll watchers s) := by
  induction watchers with
  | nil => exact fun hnone => .nil hnone
  | cons w rest ih =>
    intro s hnone
    have hdrained : (s.modifyResource w.resource fun r =>
        { r with listeners := (r.listeners.drain w.listener).2 }).entries.get? key = none := hnone
    have hheard (events : List ResourceEvent) := spares_hear w events hdrained
    unfold hearAll
    exact ⟨(ih (hheard _).1).1, fun n hn =>
      (List.mem_append.1 hn).elim ((hheard _).2 n) ((ih (hheard _).1).2 n)⟩

/-- **Whoever does not observe is spared**, whatever happens to a resource. -/
theorem spares_announce (hnone : s.entries.get? key = none) (id : ResourceId)
    (event : ResourceEvent) : Spares key (s.announce id event) := by
  have htold : (s.modifyResource id fun r =>
      { r with listeners := r.listeners.publish event }).entries.get? key = none := hnone
  exact spares_hearAll _ htold

end Subscriptions

end Coap
