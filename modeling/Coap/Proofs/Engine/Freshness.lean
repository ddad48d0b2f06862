/-
# Notifications in order

Notifications can overtake each other on their way.  A requester is told only of those that are
fresher than the last one it was told of, by their numbers and by the time that has passed since;
any other is dropped without a trace.  A response that is no notification is the last thing the
requester hears of.  What carries this through all histories is that the conversation of the
request knows the last response its requester was told of, and its time.
-/
import Coap.Proofs.Engine.Hearing
import Coap.Proofs.Engine.Evolution
import Coap.Proofs.Engine.Ledger

namespace Coap

/-! ## What a conversation knows -/

/-- A conversation knows what its requester was told of: nothing yet, or a response, which is the
result of one that waits for that, and otherwise a notification with its number and time. -/
structure Conversation.Tracks (c : Conversation) (told : List (Instant × Message)) : Prop where
  latest_eq_none_iff : c.latest? = none ↔ told = []
  latest : c.requester.interest ≠ .awaiting → ∀ number t, c.latest? = some (number, t) →
    ∃ m, told.getLast? = some (t, m) ∧ m.observed? = some number
  settled_iff : c.requester.interest = .awaiting → (c.settled = true ↔ told ≠ [])

/-- One that waits for a result listens until it has one, any other as long as it likes. -/
def Requester.Listening (r : Requester) (told : List (Instant × Message)) : Prop :=
  r.interest = .awaiting → told = []

/-- A notification that arrives at a time is the first one, or fresher than the last one. -/
def FreshAfter (told : List (Instant × Message)) (now : Instant) (number : SequenceNumber) : Prop :=
  ∀ t m previous, told.getLast? = some (t, m) → m.observed? = some previous →
    number.isFresherThan previous (now - t) = true

/-- A conversation takes the notification for a fresh one. -/
def Conversation.Takes (c : Conversation) (now : Instant) (number : SequenceNumber) : Prop :=
  ∀ previous t, c.latest? = some (previous, t) → number.isFresherThan previous (now - t) = true

namespace Conversation.Tracks

variable {c : Conversation} {told : List (Instant × Message)} {name : String}

/-- A report reaches the requester as long as that listens. -/
theorem listens_iff (h : c.Tracks told) :
    c.Listens c.requester.name ↔ c.requester.Listening told := by
  unfold Conversation.Listens Requester.Listening
  constructor
  · rintro ⟨-, hnot⟩ hw
    by_contra hne
    exact hnot ⟨hw, (h.settled_iff hw).mpr hne⟩
  · intro hlistening
    exact ⟨rfl, fun ⟨hw, hsettled⟩ => (h.settled_iff hw).mp hsettled (hlistening hw)⟩

/-- What is fresh is decided by the last response that was passed on. -/
theorem takes_iff (h : c.Tracks told) (hlistening : c.requester.Listening told) (now : Instant)
    (number : SequenceNumber) : c.Takes now number ↔ FreshAfter told now number := by
  cases hlatest : c.latest? with
  | none =>
    have htold := h.latest_eq_none_iff.mp hlatest
    constructor
    · intro _ t m previous hlast
      rw [htold] at hlast
      cases hlast
    · intro _ previous t hsome
      rw [hlatest] at hsome
      cases hsome
  | some x =>
    obtain ⟨previous, t⟩ := x
    -- one who waits for a single response does not listen any more when there was one
    have hw : c.requester.interest ≠ .awaiting := by
      intro hw
      have hnone := h.latest_eq_none_iff.mpr (hlistening hw)
      rw [hlatest] at hnone
      cases hnone
    obtain ⟨m, hlast, hobserved⟩ := h.latest hw previous t hlatest
    constructor
    · intro htakes t' m' previous' hlast' hobserved'
      rw [hlast] at hlast'
      obtain ⟨rfl, rfl⟩ := Prod.mk.inj (Option.some.inj hlast')
      rw [hobserved] at hobserved'
      obtain rfl := Option.some.inj hobserved'
      exact htakes previous t hlatest
    · intro hfresh previous' t' hsome
      rw [hlatest] at hsome
      obtain ⟨rfl, rfl⟩ := Prod.mk.inj (Option.some.inj hsome)
      exact hfresh t m previous hlast hobserved

/-- The conversation goes on with the notification that is passed on. -/
theorem notice (h : c.Tracks told) {m : Message} {number : SequenceNumber} (now : Instant)
    (hobserved : m.observed? = some number) :
    Tracks { c with
        latest? := some (number, now)
        settled := c.settled || decide (c.requester.interest = .awaiting) }
      (told ++ if c.Listens c.requester.name then [(now, m)] else []) := by
  by_cases hl : c.Listens c.requester.name
  · rw [if_pos hl]
    refine ⟨by simp, fun _ number' t hsome => ?_, fun hw => ?_⟩
    · obtain ⟨rfl, rfl⟩ := Prod.mk.inj (Option.some.inj hsome)
      exact ⟨m, List.getLast?_concat, hobserved⟩
    · have hw' : c.requester.interest = .awaiting := hw
      simp [hw']
  · -- one that waited has its result already
    have hwaited : c.requester.interest = .awaiting ∧ told ≠ [] := by
      rw [h.listens_iff] at hl
      exact Classical.not_imp.mp hl
    rw [if_neg hl, List.append_nil]
    refine ⟨by simp [hwaited.2], fun hw => absurd hwaited.1 hw, fun _ => by simp [hwaited]⟩

end Conversation.Tracks

namespace Engine

variable {e e' : Engine} {r : Requester} {key : ConversationKey} {key? : Option ConversationKey}
  {c : Conversation} {peer : Endpoint} {m : Message} {name : String}

/-! ## Responses that are delivered -/

theorem Quiet.deliver_of_none (hnone : e.conversations.get? ⟨peer, m.token⟩ = none) :
    Quiet e (e.deliver peer m) := by
  rw [Engine.deliver_of_none hnone]
  split
  · exact Quiet.frame.transmit e _ _
  · exact Quiet.refl e

theorem deliver_of_final (hc : e.conversations.get? ⟨peer, m.token⟩ = some c)
    (hfinal : m.notice? = none) : e.deliver peer m =
      (e.closeConversation ⟨peer, m.token⟩).reportResponse ⟨peer, m.token⟩ c m := by
  rw [Message.notice?] at hfinal
  unfold deliver
  simp only [hc, hfinal]

/-- A fresh notification is passed on, with its number and time in the books already. -/
theorem deliver_of_takes {number : SequenceNumber}
    (hc : e.conversations.get? ⟨peer, m.token⟩ = some c) (hnotice : m.notice? = some number)
    (htakes : c.Takes e.now number) : e.deliver peer m =
      { e with
        conversations := e.conversations.insert ⟨peer, m.token⟩
          { c with latest? := some (number, e.now) } }.reportResponse
        ⟨peer, m.token⟩ { c with latest? := some (number, e.now) } m := by
  rw [Message.notice?] at hnotice
  unfold deliver
  simp only [hc, hnotice]
  cases hlatest : c.latest? with
  | none => simp
  | some x => simp [htakes x.1 x.2 hlatest]

theorem deliver_of_not_takes {number : SequenceNumber}
    (hc : e.conversations.get? ⟨peer, m.token⟩ = some c) (hnotice : m.notice? = some number)
    (htakes : ¬ c.Takes e.now number) : e.deliver peer m = e := by
  rw [Message.notice?] at hnotice
  obtain ⟨previous, t, hlatest, hstale⟩ : ∃ previous t, c.latest? = some (previous, t) ∧
      ¬ number.isFresherThan previous (e.now - t) = true := by
    simpa [Conversation.Takes] using htakes
  unfold deliver
  simp [hc, hnotice, hlatest, hstale]

/-! ## Following the one conversation of a requester -/

/-- The conversations of a requester are under one key at most, and know what it was told. -/
def Follows (e : Engine) (r : Requester) (key? : Option ConversationKey) : Prop :=
  ∀ k c, e.conversations.get? k = some c → c.requester.name = r.name →
    key? = some k ∧ c.requester = r ∧ c.Tracks (e.responsesTo r.name)

namespace Follows

/-- Conversations may end, as long as the requester is told of no response. -/
theorem of_fewer (h : e.Follows r key?)
    (hconv : ∀ k c, e'.conversations.get? k = some c → e.conversations.get? k = some c)
    (htold : e'.responsesTo r.name = e.responsesTo r.name) : e'.Follows r key? := by
  intro k c hc hname
  rw [htold]
  exact h k c (hconv k c hc) hname

theorem of_quiet (h : e.Follows r key?) (hquiet : Quiet e e') : e'.Follows r key? := by
  refine h.of_fewer (fun k c hc => ?_) ?_
  · rwa [hquiet.conversations] at hc
  · rw [responsesTo, responsesTo, toldTo_congr hquiet.reported]

/-- The conversation under a key ends. -/
theorem of_closed (h : e.Follows r key?)
    (hconv : ∀ k, e'.conversations.get? k = if key = k then none else e.conversations.get? k)
    (hgrows : Grows e e') (htold : e'.responses = e.responses) : e'.Follows r key? := by
  refine h.of_fewer (fun k c hc => ?_) (responsesTo_congr hgrows htold r.name)
  rw [hconv] at hc
  split at hc
  · cases hc
  · exact hc

/-- Other conversations do not tell the requester of anything. -/
theorem not_listens (h : e.Follows r key?) {other : ConversationKey} {d : Conversation}
    (hc : e.conversations.get? key = some c) (hd : e.conversations.get? other = some d)
    (hname : d.requester.name = r.name) (hne : key ≠ other) : ¬ c.Listens r.name := by
  intro hl
  have hkey := (h key c hc hl.1).1.symm.trans (h other d hd hname).1
  exact hne (Option.some.inj hkey)

/-- A response under one key is not heard of by requesters of conversations under others. -/
theorem deliver (h : e.Follows r key?) (peer : Endpoint) (m : Message) :
    (e.deliver peer m).Follows r key? := by
  cases hc : e.conversations.get? ⟨peer, m.token⟩ with
  | none => exact h.of_quiet (Quiet.deliver_of_none hc)
  | some c =>
    cases hnotice : m.notice? with
    | none =>
      rw [deliver_of_final hc hnotice]
      intro k d hd hname
      rw [reportResponse, get?_close_report] at hd
      split at hd
      · cases hd
      · next hne =>
        rw [responsesTo_reportResponse, if_neg (h.not_listens hc hd hname hne), List.append_nil]
        exact h k d hd hname
    | some number =>
      -- a notification is entered in the conversation that it comes for, if it is taken
      by_cases htakes : c.Takes e.now number
      · obtain ⟨hobserved, -⟩ := Option.filter_eq_some_iff.mp hnotice
        rw [deliver_of_takes hc hnotice htakes]
        intro k d hd hname
        rw [get?_insert_report] at hd
        rw [responsesTo_reportResponse]
        split at hd
        · next hkey =>
          obtain rfl := Option.some.inj hd
          obtain ⟨hkey?, rfl, htracks⟩ := h _ c hc hname
          exact ⟨hkey ▸ hkey?, rfl, htracks.notice e.now hobserved⟩
        · next hne =>
          have hother : ¬ ({ c with latest? := some (number, e.now) } : Conversation).Listens
              r.name := Follows.not_listens (c := c) h hc hd hname hne
          rw [if_neg hother, List.append_nil]
          exact h k d hd hname
      · rw [deliver_of_not_takes hc hnotice htakes]
        exact h

theorem frame (r : Requester) (key? : Option ConversationKey) :
    NodeFrame (fun e e' => e.Follows r key? → e'.Follows r key?) fun _ _ => True where
  toServingFrame := Quiet.frame.mono (fun _ _ hquiet h => h.of_quiet hquiet) fun h h' hf => h' (h hf)
  closed e _ _ h := h.of_quiet (Quiet.layers e _ _ _ _ _)
  heard e _ _ h := h.of_quiet (Quiet.layers e _ _ _ _ _)
  deliver _ peer m h := h.deliver peer m
  concluded e _ h := h.of_quiet (Quiet.layers e _ _ _ _ _)
  failed {e key c} failure _ h :=
    h.of_closed (get?_close_reportFailure e key c failure)
      (Grows.report (e.closeConversation key) key c _ _)
      (Clerical.close_reportFailure e key c failure).responses
  deadlines _ _ h := h.of_fewer (fun _ _ hc => hc) rfl
  withdraw e key h := h.of_closed (get?_dropConversation e key) (Grows.dropConversation e key)
    (Clerical.withdraw e key).responses
  withdrawing _ _ h := h.of_fewer (fun _ _ hc => hc) rfl
  repeated e _ h := h.of_quiet (Quiet.layers e _ _ _ _ _)
  resumeDue e now h := h.of_quiet (Quiet.resumeDue e now)
  stateSet e _ _ h := h.of_quiet (Quiet.layers e _ _ _ _ _)
  outboxOpen _ _ h := h.of_fewer (fun _ _ hc => hc) rfl
  under _ _ h := h.of_fewer (fun _ _ hc => hc) rfl
  now _ _ h := h.of_fewer (fun _ _ hc => hc) rfl

theorem closeConversation (h : e.Follows r key?) (key : ConversationKey) :
    (e.closeConversation key).Follows r key? :=
  h.of_closed (get?_closeConversation e key) (Grows.refl e) rfl

theorem reportUnsent (h : e.Follows r key?) (peer : Endpoint) (other : Requester)
    (failure : SendFailure) : (e.reportUnsent peer other failure).Follows r key? :=
  h.of_fewer (fun _ _ hc => hc) (responsesTo_congr (Grows.note e _)
    (Clerical.reportUnsent e peer other failure).responses r.name)

/-- Whoever opens a conversation, no requester is told of a response. -/
theorem responsesTo_openConversation (e : Engine) (key : ConversationKey) (other : Requester)
    (name : String) : (e.openConversation key other).responsesTo name = e.responsesTo name :=
  responsesTo_congr (Grows.dropConversation e key) (Clerical.dropConversation e key).responses name

theorem openConversation (h : e.Follows r key?) (key : ConversationKey) {other : Requester}
    (hother : other.name ≠ r.name) : (e.openConversation key other).Follows r key? := by
  intro k c hc hname
  rw [get?_openConversation] at hc
  rw [responsesTo_openConversation]
  split at hc
  · obtain rfl := Option.some.inj hc
    exact absurd hname hother
  · exact h k c hc hname

/-- **Every event keeps the one conversation of a requester in view**, as long as it submits no
other request under that name. -/
theorem step (h : e.Follows r key?) {event : Event} (hevent : event.requester? ≠ some r.name) :
    (e.step event).Follows r key? := by
  refine (frame r key?).step e event (fun peer m other hsubmit => ?_) (fun _ _ _ _ => trivial)
    (fun id change _ h => h.of_quiet (Quiet.announce e id change)) h
  subst hsubmit
  have hother : other.name ≠ r.name := fun hname => hevent (congrArg some hname)
  exact (frame r key?).submit e peer m other (fun _ _ h => h.of_fewer (fun _ _ hc => hc) rfl)
    (fun _ key h => h.openConversation key hother) (fun _ key h => h.closeConversation key)
    (fun _ failure h => h.reportUnsent peer other failure) (fun _ _ => trivial)

theorem run {events : List Event} (hevents : ∀ event ∈ events, event.requester? ≠ some r.name)
    (h : e.Follows r key?) : (e.run events).Follows r key? := by
  induction events generalizing e with
  | nil => exact h
  | cons event rest ih =>
    refine ih (fun event hmem => hevents event (List.mem_cons_of_mem _ hmem)) ?_
    exact h.step (hevents event List.mem_cons_self)

/-- The request is submitted: its conversation is the one to follow, and knows of nothing. -/
theorem submit_own (h : e.Follows r none) (hnothing : e.responsesTo r.name = []) {sent : Message}
    (hsent : (e.withToken peer m).1 = .ok sent) :
    (e.submit peer m r).2.Follows r (some ⟨peer, sent.token⟩) := by
  have hopened : ((e.withToken peer m).2.openConversation ⟨peer, sent.token⟩ r).Follows r
      (some ⟨peer, sent.token⟩) := by
    obtain ⟨tokens, htokens⟩ := withToken_eq e peer m
    intro k c hc hname
    rw [get?_openConversation, htokens] at hc
    rw [responsesTo_openConversation, htokens]
    split at hc
    · next hkey =>
      obtain rfl := Option.some.inj hc
      have hnothing' : ({ e with tokens } : Engine).responsesTo r.name = [] := hnothing
      rw [hnothing', hkey]
      exact ⟨rfl, rfl, by simp, fun _ _ _ hsome => (by cases hsome), fun _ => by simp⟩
    · cases (h k c hc hname).1
  have hgone := hopened.of_quiet (Quiet.sendThrough _ peer sent none)
  unfold submit
  simp only [hsent]
  split
  · exact (frame r _).settle _ hgone
  · exact (frame r _).settle _ ((hgone.closeConversation _).reportUnsent peer r _)

end Follows

/-! ## Events in which a requester hears of nothing -/

theorem responsesTo_deliver_of_not_listens
    (hnot : ∀ c, e.conversations.get? ⟨peer, m.token⟩ = some c → ¬ c.Listens name) :
    (e.deliver peer m).responsesTo name = e.responsesTo name := by
  cases hc : e.conversations.get? ⟨peer, m.token⟩ with
  | none =>
    rw [responsesTo, responsesTo, toldTo_congr (Quiet.deliver_of_none hc).reported]
  | some c =>
    have hl := hnot c hc
    cases hnotice : m.notice? with
    | none =>
      rw [deliver_of_final hc hnotice, responsesTo_reportResponse, if_neg hl, List.append_nil]
      rfl
    | some number =>
      by_cases htakes : c.Takes e.now number
      · have hl' : ¬ ({ c with latest? := some (number, e.now) } : Conversation).Listens name := hl
        rw [deliver_of_takes hc hnotice htakes, responsesTo_reportResponse, if_neg hl',
          List.append_nil]
        rfl
      · rw [deliver_of_not_takes hc hnotice htakes]

theorem responsesTo_of_quiet (h : Quiet e e') (name : String) :
    e'.responsesTo name = e.responsesTo name := by
  rw [responsesTo, responsesTo, toldTo_congr h.reported]

/-- Only the delivery of a response tells a requester of one, if its conversation would. -/
theorem responsesTo_step {event : Event}
    (hnot : ∀ peer m c, e.Delivers event peer m →
      e.conversations.get? ⟨peer, m.token⟩ = some c → ¬ c.Listens name) :
    (e.step event).responsesTo name = e.responsesTo name := by
  have hbrings (peer : Endpoint) (m : Message) (hevent : event.Brings peer m) :
      (e.step event).responsesTo name = e.responsesTo name := by
    rw [responsesTo_of_brings hevent]
    by_cases hresponse : m.isResponse = true
    · obtain ⟨e₁, hquiet, habsorb⟩ := absorb_of_response hresponse e peer
      rw [habsorb]
      split
      · next hadmits =>
        refine (responsesTo_deliver_of_not_listens fun c hc => ?_).trans
          (responsesTo_of_quiet hquiet name)
        rw [hquiet.conversations] at hc
        exact hnot peer m c ⟨hevent, hresponse, hadmits⟩ hc
      · exact responsesTo_of_quiet hquiet name
    · exact responsesTo_of_quiet (Quiet.absorb hresponse e peer) name
  by_cases hinner : event.IsInner
  · exact responsesTo_congr (Grows.step e event) (Mute.step hinner e).responses name
  cases event with
  | handle peer decoded =>
    cases decoded with
    | error fault => exact responsesTo_of_quiet (Quiet.frame.reject e peer fault) name
    | ok m => exact hbrings peer m (.inl rfl)
  | absorb peer m => exact hbrings peer m (.inr rfl)
  | submit peer m other =>
    refine responsesTo_congr (Grows.submit e peer m other) ?_ name
    cases hsent : (e.withToken peer m).1 with
    | ok sent => exact (submit_told hsent other).1
    | error failure => exact (Clerical.submit_of_error hsent other).responses
  | _ => exact absurd trivial hinner

/-- A requester without a conversation hears of nothing any more. -/
theorem Follows.silent {events : List Event}
    (hevents : ∀ event ∈ events, event.requester? ≠ some r.name) (h : e.Follows r none) :
    (e.run events).responsesTo r.name = e.responsesTo r.name := by
  induction events generalizing e with
  | nil => rfl
  | cons event rest ih =>
    have hstep : (e.step event).responsesTo r.name = e.responsesTo r.name := by
      refine responsesTo_step fun peer m c _ hc hl => ?_
      cases (h _ c hc hl.1).1
    exact (ih (fun event hmem => hevents event (List.mem_cons_of_mem _ hmem))
      (h.step (hevents event List.mem_cons_self))).trans hstep

/-! ## The last response -/

/-- After a message has been dealt with, conversations end at most, and the tokens with them. -/
theorem books_of_brings {event : Event} (hevent : event.Brings peer m) (e : Engine) :
    Mute (e.absorb peer m) (e.step event) ∧ Books (e.absorb peer m) (e.step event) := by
  rcases hevent with rfl | rfl
  · refine ⟨(clerical_receive e peer m).toMute, ?_⟩
    show Books _ (e.receive peer m)
    rw [receive_eq_absorb]
    exact (Books.frame.concludeAll _ _).trans (Books.frame.settle _)
  · exact ⟨.refl _, .refl _⟩

/-- A response that is no notification ends the conversation, and its token is given up. -/
theorem closed_of_final {event : Event} (hdelivers : e.Delivers event peer m)
    (hc : e.conversations.get? ⟨peer, m.token⟩ = some c) (hfinal : m.notice? = none) :
    (e.step event).conversations.get? ⟨peer, m.token⟩ = none ∧
      ¬ (e.step event).Reserves ⟨peer, m.token⟩ := by
  obtain ⟨hevent, hresponse, hadmits⟩ := hdelivers
  obtain ⟨e₁, hquiet, habsorb⟩ := absorb_of_response hresponse e peer
  rw [← hquiet.conversations] at hc
  rw [if_pos hadmits, deliver_of_final hc hfinal] at habsorb
  have hclosed : (e.absorb peer m).conversations.get? ⟨peer, m.token⟩ = none := by
    rw [habsorb, reportResponse, get?_close_report, if_pos rfl]
  have hreleased : ¬ (e.absorb peer m).Reserves ⟨peer, m.token⟩ := by
    obtain ⟨_, _, _, hframe⟩ := report_frame (e₁.closeConversation ⟨peer, m.token⟩)
      ⟨peer, m.token⟩ c (.response m) (.ok m)
    rw [habsorb, reportResponse, Reserves, hframe]
    intro hmem
    exact (TokenPool.mem_taken_release.mp hmem).2 ⟨rfl, rfl⟩
  obtain ⟨hmute, hbooks⟩ := books_of_brings hevent e
  have hnext : (e.step event).conversations.get? ⟨peer, m.token⟩ = none := by
    refine Option.eq_none_iff_forall_ne_some.mpr fun c' hc' => ?_
    obtain ⟨c₀, hc₀, -⟩ := hmute.kept _ c' hc'
    rw [hclosed] at hc₀
    cases hc₀
  refine ⟨hnext, ?_⟩
  rcases hbooks.agree ⟨peer, m.token⟩ with ⟨hreserves, -⟩ | hagree
  · rwa [hreserves]
  · rw [hagree, Converses, hnext]
    exact Bool.false_ne_true

/-! ## Passed on in order -/

/-- **Notifications are passed on in order, and nothing after the last response.**  A request is
submitted at any time under a name that no other request uses, and whatever may happen happens,
with handlers that may behave in another way from any event on.
Its requester is told of a response only when one is delivered while its conversation is open, and
as long as it listens.  A notification is then passed on if it is the first response since the
request, or fresher than the last one that was passed on, by its number and by the time that has
passed since then; otherwise nobody is told and nothing changes for the requests of this node.  A
response that is no notification is passed on, closes the conversation and releases its token, and
the requester is told of no response ever after. -/
theorem passed_on_in_order (config : Config) (chances : Chances) (service : Service)
    (resources : List (String × Resource)) (before after : List Event) (peer : Endpoint)
    (m : Message) (r : Requester)
    (hname : ∀ event ∈ before ++ after, event.requester? ≠ some r.name) :
    let e := (start config chances service resources).run before
    let submitted := e.step (.submit peer m r)
    submitted.responsesTo r.name = [] ∧
    ∀ sent earlier event later, (e.withToken peer m).1 = .ok sent →
      after = earlier ++ event :: later →
      let key : ConversationKey := ⟨peer, sent.token⟩
      let s := submitted.run earlier
      let next := s.step event
      let told := s.responsesTo r.name
      let Heard (m : Message) : Prop := s.Delivers event peer m ∧ m.token = sent.token ∧
        ∃ c, s.conversations.get? key = some c ∧ c.requester = r
      ((∀ m, Heard m → ¬ r.Listening told) → next.responsesTo r.name = told) ∧
      ∀ m, Heard m →
        (∀ number, m.notice? = some number → r.Listening told →
          (FreshAfter told s.now number → next.responsesTo r.name = told ++ [(s.now, m)]) ∧
          (¬ FreshAfter told s.now number →
            next.responsesTo r.name = told ∧ Quiet s (s.absorb peer m))) ∧
        (m.notice? = none →
          (r.Listening told → next.responsesTo r.name = told ++ [(s.now, m)]) ∧
          next.conversations.get? key = none ∧ ¬ next.Reserves key ∧
          (next.run later).responsesTo r.name = next.responsesTo r.name) := by
  intro e submitted
  have hstart : (start config chances service resources).Follows r none := by
    intro k c hc
    simp [start] at hc
  have hbefore : ∀ event ∈ before, event.requester? ≠ some r.name :=
    fun event hmem => hname event (List.mem_append_left _ hmem)
  have hnothing : e.responsesTo r.name = [] := hstart.silent hbefore
  have hfollows : e.Follows r none := hstart.run hbefore
  have hsubmitted : submitted.responsesTo r.name = [] := by
    refine (responsesTo_step fun _ _ _ hdelivers => ?_).trans hnothing
    rcases hdelivers.1 with h | h <;> cases h
  refine ⟨hsubmitted, ?_⟩
  rintro sent earlier event later hsent rfl key s next told Heard
  have hafter : ∀ event' ∈ earlier ++ event :: later, event'.requester? ≠ some r.name :=
    fun event' hmem => hname event' (List.mem_append_right _ hmem)
  have hevent : event.requester? ≠ some r.name :=
    hafter event (List.mem_append_right _ List.mem_cons_self)
  have hs : s.Follows r (some key) :=
    (hfollows.submit_own hnothing hsent).run fun event' hmem =>
      hafter event' (List.mem_append_left _ hmem)
  constructor
  · -- whoever is told of something listens under this key
    intro hdeaf
    refine responsesTo_step fun peer' m' c hdelivers hc hl => ?_
    obtain ⟨hkey, hrequester, htracks⟩ := hs _ c hc hl.1
    obtain ⟨rfl, htoken⟩ := ConversationKey.mk.inj (Option.some.inj hkey)
    subst hrequester
    refine hdeaf m' ⟨hdelivers, htoken.symm, c, ?_, rfl⟩ (htracks.listens_iff.mp hl)
    rwa [Option.some.inj hkey]
  · rintro m' ⟨hdelivers, htoken, c, hc, rfl⟩
    obtain ⟨-, -, htracks⟩ := hs key c hc rfl
    have hkey : key = ⟨peer, m'.token⟩ := by rw [htoken]
    rw [hkey] at hc ⊢
    obtain ⟨hbrings, hresponse, hadmits⟩ := hdelivers
    obtain ⟨e₁, hquiet, habsorb⟩ := absorb_of_response hresponse s peer
    have htold : next.responsesTo c.requester.name =
        (e₁.deliver peer m').responsesTo c.requester.name := by
      rw [responsesTo_of_brings hbrings, habsorb, if_pos hadmits]
    have hpassed : e₁.responsesTo c.requester.name = told := responsesTo_of_quiet hquiet _
    have hc₁ : e₁.conversations.get? ⟨peer, m'.token⟩ = some c := by rwa [hquiet.conversations]
    rw [if_pos hadmits] at habsorb
    refine ⟨fun number hnotice hlistening => ⟨fun hfresh => ?_, fun hstale => ?_⟩,
      fun hfinal => ⟨fun hlistening => ?_, ?_⟩⟩
    · have htakes : c.Takes e₁.now number := by
        rw [hquiet.now]
        exact (htracks.takes_iff hlistening s.now number).mpr hfresh
      have hl : ({ c with latest? := some (number, e₁.now) } : Conversation).Listens
          c.requester.name := htracks.listens_iff.mpr hlistening
      rw [htold, deliver_of_takes hc₁ hnotice htakes, responsesTo_reportResponse, if_pos hl]
      show e₁.responsesTo c.requester.name ++ [(e₁.now, m')] = _
      rw [hpassed, hquiet.now]
    · -- a stale notification is dropped as if it had not come
      have htakes : ¬ c.Takes e₁.now number := by
        rw [hquiet.now, htracks.takes_iff hlistening s.now number]
        exact hstale
      rw [deliver_of_not_takes hc₁ hnotice htakes] at htold habsorb
      rw [habsorb]
      exact ⟨htold.trans hpassed, hquiet⟩
    · rw [htold, deliver_of_final hc₁ hfinal, responsesTo_reportResponse,
        if_pos (htracks.listens_iff.mpr hlistening)]
      show e₁.responsesTo c.requester.name ++ [(e₁.now, m')] = _
      rw [hpassed, hquiet.now]
    · -- the conversation is closed, and the requester has no other one
      obtain ⟨hclosed, hreleased⟩ := closed_of_final ⟨hbrings, hresponse, hadmits⟩ hc hfinal
      refine ⟨hclosed, hreleased, Follows.silent (fun event' hmem => ?_) fun k d hd hdname => ?_⟩
      · exact hafter event' (List.mem_append_right _ (List.mem_cons_of_mem _ hmem))
      · have hk := (hs.step hevent k d hd hdname).1
        rw [← Option.some.inj hk, hkey] at hd
        exact absurd (hclosed.symm.trans hd) (by simp)

/-- The numbers of an observation pass zero.  The notification before zero that comes after the
one behind it is dropped, and the response that ends the observation is passed on. -/
theorem passed_on_across_zero :
    let peer : Endpoint := ⟨1⟩
    let token : Token := ⟨[7], by decide⟩
    let key : ConversationKey := ⟨peer, token⟩
    let request : Message :=
      { type := .confirmable, code := .request .get, id := 0, token,
        options := ⟨[⟨.observe, .unsigned 0⟩], by simp⟩ }
    let notice (id : MessageId) (number : UInt32) : Message :=
      { type := .nonConfirmable, code := .response .content, id, token,
        options := ⟨[⟨.observe, .unsigned number⟩], by simp⟩ }
    let last : Message := { type := .nonConfirmable, code := .response .notFound, id := 4, token }
    let chances : Chances :=
      ⟨.constant 1000, .constant (.ofNat 100), .constant 0, .constant 0⟩
    let reader : Requester := ⟨"reader", .full⟩
    let submitted := (start .standard chances (fun _ => { reaction := .hold }) []).step
      (.submit peer request reader)
    let earlier : List Event := [.handle peer (.ok (notice 1 16777215)),
      .handle peer (.ok (notice 2 1))]
    let told : List (Instant × Message) := [(0, notice 1 16777215), (0, notice 2 1)]
    let late : Event := .handle peer (.ok (notice 3 16777214))
    let closing : Event := .handle peer (.ok last)
    (∀ event ∈ [] ++ (earlier ++ [late, closing]), event.requester? ≠ some "reader") ∧
    (submitted.run earlier).responsesTo "reader" = told ∧
    (submitted.run (earlier ++ [late])).responsesTo "reader" = told ∧
    (submitted.run (earlier ++ [late, closing])).responsesTo "reader" = told ++ [(0, last)] ∧
    ¬ (submitted.run (earlier ++ [late, closing])).Reserves key := by
  intro peer token key request notice last chances reader submitted earlier told late closing
  have hname : ∀ event ∈ [] ++ (earlier ++ [late, closing]),
      event.requester? ≠ some "reader" := by decide
  obtain ⟨-, hpassed⟩ := passed_on_in_order .standard chances (fun _ => { reaction := .hold }) [] []
    (earlier ++ [late, closing]) peer request reader hname
  have htold : (submitted.run earlier).responsesTo "reader" = told := by decide +kernel
  have hlistening (l : List (Instant × Message)) : reader.Listening l := fun hw => by cases hw
  have hlate : (submitted.run (earlier ++ [late])).responsesTo "reader" = told := by
    have hopen : ((submitted.run earlier).conversations.get? key).map (·.requester) =
        some reader := by decide +kernel
    have hdelivers : (submitted.run earlier).Delivers late peer (notice 3 16777214) :=
      ⟨.inl rfl, by decide, by decide +kernel⟩
    have hstale : ¬ FreshAfter told (submitted.run earlier).now (.ofNat 16777214) := by
      intro hfresh
      exact absurd (hfresh 0 (notice 2 1) (.ofNat 1) rfl (by decide)) (by decide +kernel)
    obtain ⟨-, hheard⟩ := hpassed request earlier late [closing] rfl rfl
    obtain ⟨hnotice, -⟩ := hheard (notice 3 16777214)
      ⟨hdelivers, rfl, Option.map_eq_some_iff.mp hopen⟩
    rw [run_append, ← htold]
    rw [← htold] at hstale
    exact ((hnotice (.ofNat 16777214) (by decide) (hlistening _)).2 hstale).1
  have hopen : ((submitted.run (earlier ++ [late])).conversations.get? key).map (·.requester) =
      some reader := by decide +kernel
  have hdelivers : (submitted.run (earlier ++ [late])).Delivers closing peer last :=
    ⟨.inl rfl, by decide, by decide +kernel⟩
  have htime : (submitted.run (earlier ++ [late])).now = 0 := by decide +kernel
  obtain ⟨-, hheard⟩ := hpassed request (earlier ++ [late]) closing [] rfl rfl
  obtain ⟨-, hfinal⟩ := hheard last ⟨hdelivers, rfl, Option.map_eq_some_iff.mp hopen⟩
  obtain ⟨hlast, -, hreleased, -⟩ := hfinal (by decide)
  refine ⟨hname, htold, hlate, ?_, hreleased⟩
  have hall : (submitted.run (earlier ++ [late, closing])).responsesTo "reader" =
      (submitted.run (earlier ++ [late])).responsesTo "reader" ++
        [((submitted.run (earlier ++ [late])).now, last)] := hlast (hlistening _)
  rw [hall, hlate, htime]

end Engine

end Coap
