/-
# What may become of a request

The requester of a request is told of notifications as they come, and at last of one thing
that is final: an answer that is no notification, or a failure.  These reports have four
sources, the delivery of responses, the outcomes of exchanges, the deadlines of acknowledged
requests and sending itself, and all of them look for the conversation of the request.  So it
is enough to follow that conversation: `Evolves` says what may become of it and what the
requester is told meanwhile, and each step of a node is of this kind.
-/
import Coap.Proofs.Engine.Conversations

namespace Coap

/-! ## Reports that leave a request open, and reports that are final -/

/-- A notification: a successful response with a sequence number. -/
def Report.IsNotice (r : Report) : Prop :=
  ∃ m, r = .response m ∧ m.isSuccess = true ∧ m.observed?.isSome = true

/-- A response that is no notification, a reset, a missing reply or another failure. -/
def Report.IsFinal : Report → Prop
  | .response m => ¬ (m.isSuccess = true ∧ m.observed?.isSome = true)
  | .reset | .timeout _ | .failed _ => True
  | .result _ => False

namespace Requester

/-- What ends a request for its requester: its result if that is waited for, and otherwise a
final report. -/
def Concluding (r : Requester) (report : Report) : Prop :=
  match r.interest with
  | .awaiting => ∃ outcome, report = .result outcome
  | .full | .plain => report.IsFinal

/-- What a requester may be told while its request is open. -/
def Interim (r : Requester) (reports : List Report) : Prop :=
  ∀ report ∈ reports, r.interest ≠ .awaiting ∧ report.IsNotice

/-- What a requester may be told of one request: notifications, and then at most one report
that concludes it. -/
def Story (r : Requester) (reports : List Report) : Prop :=
  ∃ (notices : List Report) (last? : Option Report),
    reports = notices ++ last?.toList ∧ r.Interim notices ∧ ∀ last ∈ last?, r.Concluding last

variable {r : Requester} {reports more : List Report} {report : Report}

/-- Interim reports may follow each other. -/
theorem Interim.append (h : r.Interim reports) (h' : r.Interim more) :
    r.Interim (reports ++ more) := by
  intro report hreport
  rcases List.mem_append.1 hreport with hreport | hreport
  · exact h report hreport
  · exact h' report hreport

/-- Interim reports are a story without an end. -/
theorem Interim.story (h : r.Interim reports) : r.Story reports :=
  ⟨reports, none, by simp, h, by simp⟩

/-- A story may begin with them. -/
theorem Interim.append_story (h : r.Interim reports) (h' : r.Story more) :
    r.Story (reports ++ more) := by
  obtain ⟨notices, last?, rfl, hnotices, hlast⟩ := h'
  exact ⟨reports ++ notices, last?, by simp, h.append hnotices, hlast⟩

/-- No reports are interim reports. -/
theorem interim_nil (r : Requester) : r.Interim [] := by
  intro report hreport
  simp at hreport

/-- A final report is a story by itself. -/
theorem story_of_concluding (last? : Option Report) (h : ∀ last ∈ last?, r.Concluding last) :
    r.Story last?.toList :=
  ⟨[], last?, rfl, r.interim_nil, h⟩

/-- A final report, or the result in its place, concludes a request. -/
theorem concluding_worded (r : Requester) (h : report.IsFinal)
    (outcome : Except SendFailure Message) : r.Concluding (r.worded report outcome) := by
  obtain ⟨name, interest⟩ := r
  cases interest with
  | awaiting => exact ⟨outcome, rfl⟩
  | full | plain => exact h

end Requester

namespace Engine

variable {e e' e'' : Engine} {r : Requester} {key k : ConversationKey} {c : Conversation}
  {name : String}

/-! ## Following the conversation of a requester -/

/-- No report would reach a requester. -/
def Deaf (e : Engine) (name : String) : Prop :=
  ∀ k c, e.conversations.get? k = some c → ¬ c.Listens name

/-- Reports of one conversation, and of no other one, would reach a requester. -/
structure Hears (e : Engine) (r : Requester) (key : ConversationKey) : Prop where
  here : ∃ c, e.conversations.get? key = some c ∧ c.requester = r ∧ c.Listens r.name
  only : ∀ k c, e.conversations.get? k = some c → c.Listens r.name → k = key

/-- What may become of a request between two states: its requester is told nothing if no
conversation would reach it; otherwise the conversation goes on with notifications, or ends
with at most one report that concludes it. -/
def Evolves (r : Requester) (e e' : Engine) : Prop :=
  ∃ told, e'.reportsTo r.name = e.reportsTo r.name ++ told ∧
    (e.Deaf r.name → told = [] ∧ e'.Deaf r.name) ∧
    ∀ key, e.Hears r key →
      (e'.Hears r key ∧ r.Interim told) ∨ (e'.Deaf r.name ∧ r.Story told)

namespace Evolves

/-- A conversation evolves on. -/
theorem trans (h : Evolves r e e') (h' : Evolves r e' e'') : Evolves r e e'' := by
  obtain ⟨told, htold, hdeaf, hhears⟩ := h
  obtain ⟨told', htold', hdeaf', hhears'⟩ := h'
  refine ⟨told ++ told', by rw [htold', htold, List.append_assoc], fun hd => ?_, fun key hk => ?_⟩
  · obtain ⟨rfl, hd'⟩ := hdeaf hd
    exact hdeaf' hd'
  · rcases hhears key hk with ⟨hk', hinterim⟩ | ⟨hd', hstory⟩
    · rcases hhears' key hk' with ⟨hk'', hinterim'⟩ | ⟨hd'', hstory'⟩
      · exact .inl ⟨hk'', hinterim.append hinterim'⟩
      · exact .inr ⟨hd'', hinterim.append_story hstory'⟩
    · obtain ⟨rfl, hd''⟩ := hdeaf' hd'
      exact .inr ⟨hd'', by rwa [List.append_nil]⟩

/-- The requester is told nothing, and the conversations are the same. -/
theorem of_same (hconv : ∀ k, e'.conversations.get? k = e.conversations.get? k)
    (htold : e'.reportsTo r.name = e.reportsTo r.name) : Evolves r e e' := by
  refine ⟨[], by simp [htold], fun hd => ⟨rfl, ?_⟩, fun key hk => .inl ⟨⟨?_, ?_⟩, r.interim_nil⟩⟩
  · intro k c hc
    rw [hconv] at hc
    exact hd k c hc
  · rw [hconv]
    exact hk.here
  · intro k c hc
    rw [hconv] at hc
    exact hk.only k c hc

/-- A quiet step changes nothing for a requester. -/
theorem of_quiet (h : Quiet e e') : Evolves r e e' :=
  of_same (fun k => by rw [h.conversations]) (reportsTo_congr h.reported _)

/-- Neither does doing nothing. -/
theorem refl (e : Engine) : Evolves r e e := of_same (fun _ => rfl) rfl

/-- A conversation ends, and if reports of it would reach the requester it is told at most one
thing, which concludes the request. -/
theorem of_end (last? : Option Report) (hc : e.conversations.get? key = some c)
    (hconv : ∀ k, e'.conversations.get? k = if key = k then none else e.conversations.get? k)
    (htold : e'.reportsTo r.name =
      e.reportsTo r.name ++ if c.Listens r.name then last?.toList else [])
    (hlast : ∀ last ∈ last?, c.requester.Concluding last) : Evolves r e e' := by
  have hleft {k : ConversationKey} {c' : Conversation}
      (hc' : e'.conversations.get? k = some c') :
      key ≠ k ∧ e.conversations.get? k = some c' := by
    rw [hconv] at hc'
    split at hc'
    · simp at hc'
    · next hne => exact ⟨hne, hc'⟩
  refine ⟨_, htold, fun hd => ?_, fun key₀ hk => ?_⟩
  · rw [if_neg (hd key c hc)]
    exact ⟨rfl, fun k c' hc' => hd k c' (hleft hc').2⟩
  · obtain ⟨c₀, hc₀, hrequester, hlistens⟩ := hk.here
    by_cases hl : c.Listens r.name
    · -- it is the conversation of this requester that ends
      obtain rfl := hk.only key c hc hl
      obtain rfl := Option.some.inj (hc.symm.trans hc₀)
      rw [if_pos hl]
      rw [hrequester] at hlast
      refine .inr ⟨fun k c' hc' hl' => ?_, Requester.story_of_concluding _ hlast⟩
      exact (hleft hc').1 (hk.only k c' (hleft hc').2 hl').symm
    · rw [if_neg hl]
      have hne : key ≠ key₀ := by
        rintro rfl
        rw [Option.some.inj (hc.symm.trans hc₀)] at hl
        exact hl hlistens
      refine .inl ⟨⟨⟨c₀, ?_, hrequester, hlistens⟩, fun k c' hc' => ?_⟩, r.interim_nil⟩
      · rw [hconv, if_neg hne]
        exact hc₀
      · exact hk.only k c' (hleft hc').2

/-- A conversation changes without changing hands. -/
theorem of_replace {c' : Conversation} {told : List Report}
    (hc : e.conversations.get? key = some c)
    (hconv : ∀ k, e'.conversations.get? k =
      if key = k then some c' else e.conversations.get? k)
    (htold : e'.reportsTo r.name =
      e.reportsTo r.name ++ if c.Listens r.name then told else [])
    (hrequester : c'.requester = c.requester) (hsettled : c.settled = true → c'.settled = true)
    (hnext : c.Listens r.name → (c'.Listens r.name ∧ c.requester.Interim told) ∨
      (¬ c'.Listens r.name ∧ c.requester.Story told)) : Evolves r e e' := by
  have hmute (hl : ¬ c.Listens r.name) : ¬ c'.Listens r.name := by
    rintro ⟨hname, hlistens⟩
    rw [hrequester] at hname hlistens
    exact hl ⟨hname, fun hw => hlistens ⟨hw.1, hsettled hw.2⟩⟩
  refine ⟨_, htold, fun hd => ?_, fun key₀ hk => ?_⟩
  · have hl : ¬ c.Listens r.name := hd key c hc
    refine ⟨if_neg hl, fun k d hd' => ?_⟩
    rw [hconv] at hd'
    split at hd'
    · obtain rfl := Option.some.inj hd'
      exact hmute hl
    · exact hd k d hd'
  · obtain ⟨c₀, hc₀, hrequester₀, hlistens₀⟩ := hk.here
    by_cases hl : c.Listens r.name
    · -- it is the one that the requester listens to
      obtain rfl := hk.only key c hc hl
      obtain rfl := Option.some.inj (hc.symm.trans hc₀)
      rw [if_pos hl]
      have honly (k : ConversationKey) (d : Conversation)
          (hd : e'.conversations.get? k = some d) (hne : key ≠ k) : ¬ d.Listens r.name := by
        rw [hconv, if_neg hne] at hd
        exact fun hl' => hne (hk.only k d hd hl').symm
      rw [hrequester₀] at hnext
      rcases hnext hl with ⟨hl', hinterim⟩ | ⟨hl', hstory⟩
      · refine .inl ⟨⟨⟨c', ?_, hrequester.trans hrequester₀, hl'⟩, fun k d hd hld => ?_⟩, hinterim⟩
        · rw [hconv, if_pos rfl]
        · exact Classical.byContradiction fun hne => honly k d hd (Ne.symm hne) hld
      · refine .inr ⟨fun k d hd hld => ?_, hstory⟩
        by_cases hk' : key = k
        · rw [hconv, if_pos hk'] at hd
          exact hl' (Option.some.inj hd ▸ hld)
        · exact honly k d hd hk' hld
    · rw [if_neg hl]
      have hne : key ≠ key₀ := by
        rintro rfl
        rw [Option.some.inj (hc.symm.trans hc₀)] at hl
        exact hl hlistens₀
      refine .inl ⟨⟨⟨c₀, ?_, hrequester₀, hlistens₀⟩, fun k d hd hld => ?_⟩, r.interim_nil⟩
      · rw [hconv, if_neg hne]
        exact hc₀
      · rw [hconv] at hd
        split at hd
        · exact absurd (Option.some.inj hd ▸ hld) (hmute hl)
        · exact hk.only k d hd hld

/-! ## Ends of conversations -/

/-- A conversation that is dropped has told its story, or tells its end now. -/
theorem dropConversation (e : Engine) (key : ConversationKey) :
    Evolves r e (e.dropConversation key) := by
  cases hc : e.conversations.get? key with
  | none =>
    rw [dropConversation_of_none hc]
    exact refl e
  | some c =>
    refine of_end (if c.requester.interest = .awaiting then some (.result (.error .shutDown))
      else none) hc (get?_dropConversation e key) ?_ ?_
    · rw [reportsTo_dropConversation hc]
      by_cases hl : c.Listens r.name <;> by_cases hw : c.requester.interest = .awaiting <;>
        simp [hl, hw]
    · intro last hlast
      split at hlast
      · next hwaits =>
        obtain rfl := Option.some.inj hlast
        unfold Requester.Concluding
        rw [hwaits]
        exact ⟨_, rfl⟩
      · simp at hlast

/-- A conversation that is closed is not heard of again. -/
theorem closeConversation (e : Engine) (key : ConversationKey) :
    Evolves r e (e.closeConversation key) := by
  cases hc : e.conversations.get? key with
  | none =>
    refine of_same (fun k => ?_) rfl
    rw [get?_closeConversation]
    split
    · next hk => rw [← hk, hc]
    · rfl
  | some c =>
    refine of_end none hc (get?_closeConversation e key) ?_ (by simp)
    show e.reportsTo r.name = _
    simp

/-- A conversation is closed with a final report. -/
theorem close_report (hc : e.conversations.get? key = some c) {report : Report}
    (hfinal : report.IsFinal) (outcome : Except SendFailure Message) :
    Evolves r e ((e.closeConversation key).report key c report outcome) := by
  refine of_end (some (c.requester.worded report outcome)) hc (get?_close_report e key c _ _) ?_ ?_
  · rw [reportsTo_report]
    rfl
  · intro last hlast
    obtain rfl := Option.some.inj hlast
    exact c.requester.concluding_worded hfinal outcome

/-- When its failure is reported, this is the end of its story. -/
theorem close_reportFailure (hc : e.conversations.get? key = some c) (failure : SendFailure) :
    Evolves r e ((e.closeConversation key).reportFailure key c failure) := by
  unfold Engine.reportFailure
  refine close_report hc ?_ (.error failure)
  split <;> trivial

/-! ## Withdrawals -/

/-- A conversation that is withdrawn is dropped. -/
theorem withdraw (e : Engine) (key : ConversationKey) : Evolves r e (e.withdraw key) :=
  (dropConversation e key).trans (of_same (fun _ => rfl) rfl)

/-! ## Responses -/

/-- A notification is passed on: the conversation goes on, except for a requester that has
now got the result it waited for. -/
theorem notice (c' : Conversation) (hc : e.conversations.get? key = some c)
    (hrequester : c'.requester = c.requester) (hsettled : c'.settled = c.settled) {m : Message}
    (hsuccess : m.isSuccess = true) (hobserved : m.observed?.isSome = true) :
    Evolves r e
      ({ e with conversations := e.conversations.insert key c' }.reportResponse key c' m) := by
  have htold := reportsTo_report { e with conversations := e.conversations.insert key c' } key c'
    (.response m) (.ok m) r.name
  have hlisten : c'.Listens r.name ↔ c.Listens r.name := by
    unfold Conversation.Listens
    rw [hrequester, hsettled]
  simp only [hlisten] at htold
  refine of_replace hc (get?_insert_report e key c' m) htold hrequester
    (fun hs => by simp [hsettled, hs]) fun hl => ?_
  by_cases hw : c.requester.interest = .awaiting
  · -- the result that was waited for
    refine .inr ⟨fun hl' => hl'.2 ⟨hrequester ▸ hw, ?_⟩, ?_⟩
    · simp [hrequester, hw]
    · refine Requester.story_of_concluding (some _) fun last hlast => ?_
      obtain rfl := Option.some.inj hlast
      unfold Requester.Concluding Requester.worded
      rw [hrequester, hw]
      exact ⟨_, rfl⟩
  · refine .inl ⟨⟨hrequester ▸ hl.1, fun hl' => hw (hrequester ▸ hl'.1)⟩, ?_⟩
    intro report hreport
    refine ⟨hw, m, ?_, hsuccess, hobserved⟩
    obtain rfl := List.mem_singleton.1 hreport
    unfold Requester.worded
    rw [hrequester]
    split
    · next hwaits => exact absurd hwaits hw
    · rfl

/-- A response is told to whoever listens, and ends the story if it is final. -/
theorem deliver (e : Engine) (peer : Endpoint) (m : Message) :
    Evolves r e (e.deliver peer m) := by
  unfold Engine.deliver
  simp only
  split
  · split
    · exact of_quiet (Quiet.frame.transmit _ _ _)
    · exact refl e
  · next c hc =>
    split
    · next hfinal =>
      refine close_report hc ?_ (.ok m)
      show ¬ (m.isSuccess = true ∧ m.observed?.isSome = true)
      rintro ⟨hsuccess, hobserved⟩
      obtain ⟨number, hnumber⟩ := Option.isSome_iff_exists.1 hobserved
      simp [hnumber, hsuccess, Option.filter] at hfinal
    · next number hnotice =>
      obtain ⟨hnumber, hsuccess⟩ := Option.filter_eq_some_iff.1 hnotice
      have hobserved : m.observed?.isSome = true := by rw [hnumber]; rfl
      split
      · exact notice { c with latest? := some (number, e.now) } hc rfl rfl hsuccess hobserved
      · split
        · exact notice { c with latest? := some (number, e.now) } hc rfl rfl hsuccess hobserved
        · exact refl e

/-! ## Every step -/

/-- Everything that a node does, other than to submit requests, is a step in the life of a
request. -/
theorem frame : NodeFrame (Evolves r) fun _ _ => True where
  toServingFrame := Quiet.frame.mono (fun _ _ => of_quiet) trans
  closed e _ _ := of_quiet (Quiet.layers e _ _ _ _ _)
  heard e _ _ := of_quiet (Quiet.layers e _ _ _ _ _)
  deliver := deliver
  concluded e _ := of_quiet (Quiet.layers e _ _ _ _ _)
  failed failure hc := close_reportFailure hc failure
  deadlines _ _ := of_same (fun _ => rfl) rfl
  withdraw := withdraw
  withdrawing _ _ := of_same (fun _ => rfl) rfl
  repeated e _ := of_quiet (Quiet.layers e _ _ _ _ _)
  resumeDue e now := of_quiet (Quiet.resumeDue e now)
  stateSet e _ _ := of_quiet (Quiet.layers e _ _ _ _ _)
  outboxOpen _ _ := of_same (fun _ => rfl) rfl
  under _ _ := of_same (fun _ => rfl) rfl
  now _ _ := of_same (fun _ => rfl) rfl

/-- A conversation that another requester opens. -/
theorem openConversation (e : Engine) (key : ConversationKey) {other : Requester}
    (hother : other.name ≠ r.name) : Evolves r e (e.openConversation key other) := by
  refine (dropConversation e key).trans ?_
  have hget (k : ConversationKey) := get?_openConversation e key other k
  have hsame (k : ConversationKey) (hk : key ≠ k) :
      (e.openConversation key other).conversations.get? k =
        (e.dropConversation key).conversations.get? k := by
    rw [hget, get?_dropConversation, if_neg hk, if_neg hk]
  have hmute {k : ConversationKey} {c : Conversation}
      (hc : (e.openConversation key other).conversations.get? k = some c)
      (hl : c.Listens r.name) :
      key ≠ k ∧ (e.dropConversation key).conversations.get? k = some c := by
    by_cases hk : key = k
    · rw [hget, if_pos hk] at hc
      exact absurd ((Option.some.inj hc ▸ hl).1) hother
    · exact ⟨hk, hsame k hk ▸ hc⟩
  refine ⟨[], by simp [reportsTo, reported]; rfl, fun hd => ⟨rfl, fun k c hc hl => ?_⟩,
    fun key₀ hk => .inl ⟨⟨?_, fun k c hc hl => ?_⟩, r.interim_nil⟩⟩
  · exact hd k c (hmute hc hl).2 hl
  · obtain ⟨c, hc, hc'⟩ := hk.here
    refine ⟨c, ?_, hc'⟩
    have hne : key ≠ key₀ := by
      rintro rfl
      simp [get?_dropConversation] at hc
    rw [hsame key₀ hne]
    exact hc
  · exact hk.only k c (hmute hc hl).2 hl

/-- Another requester is told that its request did not go out. -/
theorem reportUnsent (e : Engine) (peer : Endpoint) {other : Requester}
    (hother : other.name ≠ r.name) (failure : SendFailure) :
    Evolves r e (e.reportUnsent peer other failure) := by
  refine of_same (fun _ => rfl) ?_
  unfold Engine.reportUnsent
  rw [reportsTo_note_reported, if_neg hother, List.append_nil]

/-- The request of another requester may take the place of the conversation. -/
theorem submit (e : Engine) (peer : Endpoint) (m : Message) {other : Requester}
    (hother : other.name ≠ r.name) : Evolves r e (e.submit peer m other).2 :=
  frame.submit e peer m other (fun _ _ => of_same (fun _ => rfl) rfl)
    (fun e key => openConversation e key hother) closeConversation
    (fun e failure => reportUnsent e peer hother failure) (fun _ _ => trivial)

end Evolves

/-- The name under which an event asks to be told about a request. -/
def Event.requester? : Event → Option String
  | .submit _ _ requester => some requester.name
  | _ => none

/-- **Every event is a step in the life of a request**, as long as it does not submit another
one for the same requester. -/
theorem Evolves.step (e : Engine) {event : Event} (h : event.requester? ≠ some r.name) :
    Evolves r e (e.step event) := by
  refine frame.step e event (fun peer m other hevent => ?_) (fun _ _ _ _ => trivial)
    fun id change _ => of_quiet (Quiet.announce e id change)
  subst hevent
  exact submit e peer m fun hname => h (congrArg some hname)

/-- So a story is told from event to event. -/
theorem Evolves.run (events : List Event) (h : ∀ event ∈ events, event.requester? ≠ some r.name)
    (e : Engine) : Evolves r e (e.run events) := by
  induction events generalizing e with
  | nil => exact refl e
  | cons event rest ih =>
    have hstep := step e (h event List.mem_cons_self)
    exact hstep.trans (ih (fun event hevent => h event (List.mem_cons_of_mem _ hevent)) _)

end Engine

end Coap
