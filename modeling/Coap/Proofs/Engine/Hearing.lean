/-
# What requesters hear, and when

A requester is told of things at certain times.  Nothing it was told is taken back, and only the
delivery of a response tells it of a response.  A response is delivered just if it is admitted:
the layers beyond the exchanges and the duplicates let it pass, and leave the requests of this
node alone, as they do with every message that is no response.
-/
import Coap.Proofs.Engine.Answering
import Coap.Proofs.Engine.Told

namespace Coap

/-- The number of a notification: a successful response that has one. -/
def Message.notice? (m : Message) : Option SequenceNumber := m.observed?.filter fun _ => m.isSuccess

/-- Only a reset without a code is for the observers alone. -/
theorem Subscriptions.receive_of_not_isEmpty {m : Message} (hfull : ¬ m.isEmpty)
    (s : Subscriptions) (peer : Endpoint) : (s.receive peer m).1 = .forward m := by
  unfold receive
  rw [if_neg fun hreset => hfull hreset.2]
  split <;> rfl

namespace Engine

variable {e e' e'' : Engine} {name : String} {key : ConversationKey} {c : Conversation}
  {peer : Endpoint} {m : Message}

/-! ## Reports and their times -/

/-- What one requester was told so far, in order, and when. -/
def toldTo (e : Engine) (name : String) : List (Instant × Report) :=
  (e.reported.filter (·.2.1 = name)).map fun x => (x.1, x.2.2.2)

/-- The responses that one requester was told of so far, in order, and when. -/
def responsesTo (e : Engine) (name : String) : List (Instant × Message) :=
  (e.toldTo name).filterMap fun x => x.2.response?.map (x.1, ·)

/-- Who was told what depends on the reports only. -/
theorem toldTo_congr (h : e'.reported = e.reported) (name : String) :
    e'.toldTo name = e.toldTo name := by
  rw [toldTo, toldTo, h]

/-- What was told are the reports, with their times. -/
theorem map_toldTo (e : Engine) (name : String) :
    (e.toldTo name).map (·.2) = e.reportsTo name := by
  rw [toldTo, reportsTo, List.map_map]
  rfl

/-- A report is told to the one whom it is for. -/
theorem toldTo_note_reported (e : Engine) (other name : String) (peer : Endpoint) (r : Report) :
    (e.note (.reported other peer r)).toldTo name =
      e.toldTo name ++ if other = name then [(e.now, r)] else [] := by
  rw [toldTo, reported_note]
  by_cases h : other = name <;> simp [LogEntry.report?, toldTo, h]

/-- A conversation reports to its requester. -/
theorem toldTo_report (e : Engine) (key : ConversationKey) (c : Conversation) (r : Report)
    (outcome : Except SendFailure Message) :
    (e.report key c r outcome).toldTo name =
      e.toldTo name ++ if c.Listens name then [(e.now, c.requester.worded r outcome)] else [] := by
  obtain ⟨number, ⟨requester, interest⟩, latest?, settled⟩ := c
  cases interest with
  | awaiting =>
    cases settled with
    | true => simp [report, Conversation.Listens]
    | false =>
      show (e.note (.reported requester key.peer (.result outcome))).toldTo name = _
      rw [toldTo_note_reported]
      simp [Conversation.Listens, Requester.worded]
  | full | plain =>
    have htold := toldTo_note_reported e requester name key.peer r
    simpa [report, Conversation.Listens, Requester.worded] using htold

/-- One that listens is told of the response. -/
theorem responsesTo_reportResponse (e : Engine) (key : ConversationKey) (c : Conversation)
    (m : Message) : (e.reportResponse key c m).responsesTo name =
      e.responsesTo name ++ if c.Listens name then [(e.now, m)] else [] := by
  have hworded : (c.requester.worded (.response m) (.ok m)).response? = some m := by
    unfold Requester.worded
    split <;> rfl
  rw [reportResponse, responsesTo, toldTo_report, List.filterMap_append]
  split
  · simp [responsesTo, hworded]
  · rfl

/-! ## Nothing is taken back -/

/-- What requesters were told before, they were told. -/
def Grows (e e' : Engine) : Prop := e.reported <+: e'.reported

namespace Grows

/-- Reports that stay the same have not been taken back. -/
theorem of_same (h : e'.reported = e.reported) : Grows e e' := by
  show e.reported <+: e'.reported
  exact ⟨[], by rw [h, List.append_nil]⟩

/-- Doing nothing takes none back. -/
theorem refl (e : Engine) : Grows e e := of_same rfl

/-- What is not taken back in two steps is not in both. -/
theorem trans (h : Grows e e') (h' : Grows e' e'') : Grows e e'' := List.IsPrefix.trans h h'

/-- A note is added to those before it. -/
theorem note (e : Engine) (o : Occurrence) : Grows e (e.note o) := by
  rw [Grows, reported_note]
  exact List.prefix_append _ _

/-- A report is added to those before it. -/
theorem report (e : Engine) (key : ConversationKey) (c : Conversation) (r : Report)
    (outcome : Except SendFailure Message) : Grows e (e.report key c r outcome) := by
  unfold Engine.report
  split
  · split
    · exact refl e
    · exact note e (.reported c.requester.name key.peer (.result outcome))
  · exact note e _

/-- The end of a conversation is reported after everything else. -/
theorem dropConversation (e : Engine) (key : ConversationKey) :
    Grows e (e.dropConversation key) := by
  unfold Engine.dropConversation
  split
  · exact refl e
  · next c _ =>
    simp only
    split
    · exact report { e with conversations := e.conversations.erase key } key c _ _
    · exact refl e

/-- A response that is delivered is reported after everything else. -/
theorem deliver (e : Engine) (peer : Endpoint) (m : Message) : Grows e (e.deliver peer m) := by
  unfold Engine.deliver
  simp only
  split
  · split
    · exact of_same (Quiet.frame.transmit e _ _).reported
    · exact refl e
  · next c hc =>
    split
    · exact report (e.closeConversation ⟨peer, m.token⟩) ⟨peer, m.token⟩ c _ _
    · next number _ =>
      have hnotice (c' : Conversation) : Grows e
          ({ e with conversations := e.conversations.insert ⟨peer, m.token⟩ c' }.reportResponse
            ⟨peer, m.token⟩ c' m) :=
        report { e with conversations := e.conversations.insert ⟨peer, m.token⟩ c' } _ c' _ _
      split
      · exact hnotice _
      · split
        · exact hnotice _
        · exact refl e

/-- No step takes back what was told. -/
theorem frame : NodeFrame Grows fun _ _ => True where
  toServingFrame := Quiet.frame.mono (fun _ _ h => of_same h.reported) trans
  closed e _ _ := refl e
  heard e _ _ := refl e
  deliver := deliver
  concluded e _ := refl e
  failed {e key c} _ _ := report (e.closeConversation key) key c _ _
  deadlines e _ := refl e
  withdraw := dropConversation
  withdrawing e _ := refl e
  repeated e _ := refl e
  resumeDue e now := of_same (Quiet.resumeDue e now).reported
  stateSet e _ _ := refl e
  outboxOpen e _ := refl e
  under e _ := refl e
  now e _ := refl e

/-- To submit a request takes no report back. -/
theorem submit (e : Engine) (peer : Endpoint) (m : Message) (r : Requester) :
    Grows e (e.submit peer m r).2 :=
  frame.submit e peer m r (fun e _ => refl e) dropConversation (fun e _ => refl e)
    (fun e _ => note e _) (fun _ _ => trivial)

/-- **No event takes back what was told.** -/
theorem step (e : Engine) (event : Event) : Grows e (e.step event) := by
  refine frame.step e event (fun peer m r _ => submit e peer m r) (fun _ _ _ _ => trivial)
    fun id change _ => of_same (Quiet.announce e id change).reported

/-- Nothing that was told is ever taken back. -/
theorem run (events : List Event) (e : Engine) : Grows e (e.run events) := by
  induction events generalizing e with
  | nil => exact refl e
  | cons event rest ih => exact (step e event).trans (ih _)

/-- One that is told nothing more has nothing more to look back on, with its times. -/
theorem toldTo_eq (hgrows : Grows e e') (h : e'.reportsTo name = e.reportsTo name) :
    e'.toldTo name = e.toldTo name := by
  have hearlier : e.toldTo name <+: e'.toldTo name := (hgrows.filter _).map _
  have hlength := congrArg List.length h
  rw [← map_toldTo, ← map_toldTo, List.length_map, List.length_map] at hlength
  exact (hearlier.eq_of_length hlength.symm).symm

end Grows

/-- A requester hears of the responses that requesters are told of. -/
theorem responsesTo_congr (hgrows : Grows e e') (h : e'.responses = e.responses) (name : String) :
    e'.responsesTo name = e.responsesTo name := by
  obtain ⟨more, hmore⟩ := hgrows
  have hnone : ∀ x ∈ more, x.2.2.2.response? = none := by
    rw [responses_eq, responses_eq, ← hmore, List.filterMap_append] at h
    intro x hx
    have hx' := List.filterMap_eq_nil_iff.mp (List.append_right_eq_self.mp h) x hx
    simpa using hx'
  rw [responsesTo, responsesTo, toldTo, toldTo, ← hmore, List.filter_append, List.map_append,
    List.filterMap_append]
  refine List.append_right_eq_self.mpr (List.filterMap_eq_nil_iff.mpr fun x hx => ?_)
  obtain ⟨y, hy, rfl⟩ := List.mem_map.mp hx
  rw [hnone y (List.mem_filter.mp hy).1]
  rfl

/-! ## Messages that pass the layers -/

/-- What the exchanges learn from a message is told to nobody. -/
theorem Quiet.heard (e : Engine) (peer : Endpoint) (m : Message) : Quiet e (e.heard peer m) := by
  unfold Engine.heard
  simp only
  split
  · exact (Quiet.layers e _ _ _ _ _).trans (Quiet.frame.transmitAll _ _)
  · exact Quiet.layers e _ _ _ _ _

/-- A message that is no response does not touch the requests of this node. -/
theorem Quiet.absorb (hresponse : ¬ m.isResponse) (e : Engine) (peer : Endpoint) :
    Quiet e (e.absorb peer m) := by
  rw [absorb_eq_heard]
  refine (Quiet.heard e peer m).trans ?_
  generalize e.heard peer m = e₁
  split
  · have hfollows := e₁.transfers.follows_receive e₁.now peer m
    let e₂ : Engine := { e₁ with transfers := (e₁.transfers.receive e₁.now peer m).2 }
    have hblocks : Quiet e₁ e₂ := Quiet.layers e₁ _ _ _ _ _
    unfold receiveInBlocks
    simp only
    split
    · next m' hforward =>
      rw [hforward] at hfollows
      have hresponse' : ¬ m'.isResponse := by
        rw [Message.isResponse, hfollows.1]
        exact hresponse
      have hobserved : Quiet e₂
          { e₂ with subscriptions := (e₂.subscriptions.receive peer m').2 } :=
        Quiet.layers e₂ _ _ _ _ _
      refine hblocks.trans ?_
      show Quiet e₂ (e₂.receiveObserved peer m')
      unfold receiveObserved
      rcases e₂.subscriptions.lets_receive peer m' with hlets | hlets
      · simp only [hlets]
        refine hobserved.trans ?_
        rw [accept_eq, if_neg hresponse']
        split
        · exact Quiet.frame.serve _ trivial
        · exact Quiet.refl _
      · simp only [hlets]
        exact hobserved
    · exact hblocks
    · exact hblocks.trans (Quiet.frame.sendReliably _ (.inl trivial))
  · exact Quiet.refl e₁

/-- **A response is delivered just if it is admitted.** -/
theorem absorb_of_response (hresponse : m.isResponse) (e : Engine) (peer : Endpoint) :
    ∃ e₁, Quiet e e₁ ∧
      e.absorb peer m = if e.Admits peer m then e₁.deliver peer m else e₁ := by
  have hrequest : ¬ m.isRequest = true := by
    rw [Message.isRequest_of_isResponse hresponse]
    exact Bool.false_ne_true
  rw [absorb_eq_heard]
  split
  · let e₁ := e.heard peer m
    refine ⟨{ e₁ with subscriptions := (e₁.subscriptions.receive peer m).2 },
      (Quiet.heard e peer m).trans (Quiet.layers e₁ _ _ _ _ _), ?_⟩
    have hblocks : e₁.transfers.receive e₁.now peer m = (.forward m, e₁.transfers) := by
      simp [Transfers.receive, hrequest]
    have hobserved := Subscriptions.receive_of_not_isEmpty
      (Message.not_isEmpty_of_isResponse hresponse) e₁.subscriptions peer
    show e₁.receiveInBlocks peer m = _
    unfold receiveInBlocks receiveObserved
    simp only [hblocks, hobserved]
    rw [accept_eq, if_neg hrequest, if_pos hresponse]
  · exact ⟨e.heard peer m, Quiet.heard e peer m, rfl⟩

/-- Requesters hear of a response when the message is dealt with, not of what is concluded
afterwards. -/
theorem responsesTo_of_brings {event : Event} (hevent : event.Brings peer m) (e : Engine)
    (name : String) : (e.step event).responsesTo name = (e.absorb peer m).responsesTo name := by
  rcases hevent with rfl | rfl
  · have hgrows : Grows (e.absorb peer m) (e.receive peer m) := by
      rw [receive_eq_absorb]
      exact (Grows.frame.concludeAll _ _).trans (Grows.frame.settle _)
    exact responsesTo_congr hgrows (clerical_receive e peer m).responses name
  · rfl

/-- An event brings a response that is admitted. -/
def Delivers (e : Engine) (event : Event) (peer : Endpoint) (m : Message) : Prop :=
  event.Brings peer m ∧ m.isResponse ∧ e.Admits peer m

end Engine

end Coap
