/-
# What happens to the requests of a node

Most of what a node does leaves the requests it sent itself alone.  The rest comes down to a few
changes, each of them to the requests under one peer and token: a response is delivered, a request
is given up, its deadline is set, or it is withdrawn.  So a relation that can be chained, and holds
when nothing happens to the requests of the node, is followed through all events by these changes
alone; and where it bears them only under some keys, through the events that touch no others.
-/
import Coap.Proofs.Engine.Freshness
import Coap.Proofs.Engine.Rejections

namespace Coap.Engine

variable {R : Engine → Engine → Prop} {Free : ConversationKey → Prop} {e e' e'' : Engine}
  {key : ConversationKey} {c : Conversation} {peer : Endpoint} {m : Message} {event : Event}

/-! ## Changes to requests -/

/-- A relation that holds for all that happens to the requests of a node under the given keys. -/
structure RequestFrame (R : Engine → Engine → Prop) (Free : ConversationKey → Prop) : Prop where
  trans : ∀ {e e' e''}, R e e' → R e' e'' → R e e''
  quiet : ∀ {e e'}, Quiet e e' → R e e'
  delivered : ∀ e peer (m : Message), Free ⟨peer, m.token⟩ → R e (e.deliver peer m)
  failed : ∀ {e : Engine} {key c} failure, Free key → e.conversations.get? key = some c →
    R e ((e.closeConversation key).reportFailure key c failure)
  postponed : ∀ {e : Engine} {key c} due, Free key → e.conversations.get? key = some c →
    R e { e with deadlines := e.deadlines ++ [⟨due, key, c.number⟩] }
  withdrawn : ∀ (e : Engine) key, Free key → R e (e.withdraw key)
  collected : ∀ {e : Engine} {key rest}, e.withdrawing = key :: rest →
    R e ({ e with withdrawing := rest }.withdraw key)

/-- The outcomes that are concluded in order are those that were given. -/
theorem map_snd_conclusionsOf (outcomes : List ExchangeEvent) (e : Engine) :
    (e.conclusionsOf outcomes).map (·.2) = outcomes := by
  induction outcomes generalizing e with
  | nil => rfl
  | cons outcome rest ih => exact congrArg (outcome :: ·) (ih _)

namespace RequestFrame

variable (h : RequestFrame R Free)

include h

/-- The relation holds where nothing happens. -/
theorem refl (e : Engine) : R e e := h.quiet (.refl e)

/-! ### Withdrawals and outcomes -/

/-- Conversations that are withdrawn may be withdrawn one by one. -/
theorem withdrawCollected (n : Nat) (e : Engine) : R e (withdrawCollected n e) := by
  induction n generalizing e with
  | zero => exact h.refl e
  | succ n ih =>
    unfold Engine.withdrawCollected
    split
    · exact h.refl e
    · next hpending => exact h.trans (h.collected hpending) (ih _)

/-- To settle the books withdraws conversations only. -/
theorem settle (e : Engine) : R e e.settle := h.withdrawCollected _ e

/-- A request is given up in a conversation that is free to be closed. -/
theorem expire (e : Engine) (number : Nat) (hfree : Free key) : R e (e.expire key number) := by
  unfold Engine.expire
  split
  · exact h.refl e
  · next hc =>
    split
    · exact h.failed _ hfree hc
    · exact h.refl e

/-- So does a failed exchange end the conversation of its token. -/
theorem conclude (e : Engine) {outcome : ExchangeEvent}
    (hfree : Free ⟨outcome.peer, outcome.token⟩) : R e (e.conclude outcome) := by
  have hconcluded : R e { e with subscriptions := e.subscriptions.settle outcome } :=
    h.quiet (.layers e _ _ _ _ _)
  unfold Engine.conclude
  simp only
  split
  · exact hconcluded
  · next hc =>
    split
    · exact h.trans hconcluded (h.failed _ hfree hc)
    · split
      · exact hconcluded
      · split
        · exact h.trans hconcluded (h.expire _ _ hfree)
        · exact h.trans hconcluded (h.postponed _ hfree hc)

/-- Several failed exchanges end one conversation each at most. -/
theorem concludeAll (outcomes : List ExchangeEvent)
    (hfree : ∀ outcome ∈ outcomes, Free ⟨outcome.peer, outcome.token⟩) (e : Engine) :
    R e (e.concludeAll outcomes) := by
  induction outcomes generalizing e with
  | nil => exact h.refl e
  | cons outcome rest ih =>
    have hfirst := h.conclude e (hfree outcome List.mem_cons_self)
    exact h.trans hfirst (ih (fun x hx => hfree x (List.mem_cons_of_mem _ hx)) _)

/-- The same, with the outcomes that an event concludes. -/
theorem conclusions (outcomes : List ExchangeEvent) (e : Engine)
    (hfree : ∀ x ∈ e.conclusionsOf outcomes, Free ⟨x.2.peer, x.2.token⟩) :
    R e (e.concludeAll outcomes) := by
  refine h.concludeAll outcomes (fun outcome houtcome => ?_) e
  rw [← map_snd_conclusionsOf outcomes e] at houtcome
  obtain ⟨x, hx, rfl⟩ := List.mem_map.mp houtcome
  exact hfree x hx

/-! ### Events -/

/-- Of a message that is dealt with only the delivery of a response matters. -/
theorem absorb (e : Engine) (hfree : m.isResponse → e.Admits peer m → Free ⟨peer, m.token⟩) :
    R e (e.absorb peer m) := by
  by_cases hresponse : m.isResponse = true
  · obtain ⟨e₁, hquiet, habsorb⟩ := absorb_of_response hresponse e peer
    rw [habsorb]
    split
    · next hadmits => exact h.trans (h.quiet hquiet) (h.delivered _ _ _ (hfree hresponse hadmits))
    · exact h.quiet hquiet
  · exact h.quiet (Quiet.absorb hresponse e peer)

/-- What is repeated belongs to no request. -/
theorem repeatDue (now : Instant) (e : Engine) : R e (repeatDue now e) := by
  unfold Engine.repeatDue
  exact h.quiet ((Quiet.layers e _ _ _ _ _).trans (Quiet.frame.transmitAll _ _))

/-- Neither does what the inbound side sends in time. -/
theorem sweepDue (now : Instant) (e : Engine) : R e (sweepDue now e) := by
  unfold Engine.sweepDue
  split
  · exact h.quiet ((Quiet.layers e _ _ _ _ _).trans (Quiet.frame.transmitAll _ _))
  · exact h.refl e

/-- What is due at a time, but for the deadlines. -/
theorem resumed (now : Instant) (e : Engine) (hclock : R e { e with now })
    (hfree : ∀ x ∈ e.conclusions (.fire now), Free ⟨x.2.peer, x.2.token⟩) :
    R e (resumeDue now (beforeResuming now e)) := by
  have hrepeated := h.trans hclock (h.repeatDue now _)
  have hconcluded := h.trans hrepeated (h.conclusions _ _ hfree)
  exact h.trans (h.trans hconcluded (h.sweepDue now _)) (h.quiet (.resumeDue _ now))

/-- A request is submitted, provided that the relation holds when its token is taken into use,
when its conversation is opened and closed, and when its requester is told of a failure. -/
theorem submit (e : Engine) (peer : Endpoint) (m : Message) (r : Requester)
    (htokens : R e (e.withToken peer m).2)
    (hopen : ∀ sent s, (e.withToken peer m).1 = .ok sent →
      R s (s.openConversation ⟨peer, sent.token⟩ r))
    (hclose : ∀ sent s, (e.withToken peer m).1 = .ok sent →
      R s (s.closeConversation ⟨peer, sent.token⟩))
    (hunsent : ∀ s failure, R s (s.reportUnsent peer r failure)) :
    R e (e.submit peer m r).2 := by
  unfold Engine.submit
  simp only
  split
  · exact h.trans (h.trans htokens (hunsent _ _)) (h.settle _)
  · next sent hsent =>
    have hgone := h.trans (h.trans htokens (hopen sent _ hsent))
      (h.quiet (.sendThrough _ peer sent none))
    split
    · exact h.trans hgone (h.settle _)
    · exact h.trans (h.trans (h.trans hgone (hclose sent _ hsent)) (hunsent _ _)) (h.settle _)

/-- **A relation that holds for what happens to the requests of a node holds for every event**
that touches only requests under the given keys. -/
theorem step (e : Engine) (event : Event)
    (hsubmit : ∀ peer m r, event = .submit peer m r → R e (e.submit peer m r).2)
    (hcancel : ∀ k, event = .cancel k → Free k)
    (hdelivers : ∀ peer m, e.Delivers event peer m → Free ⟨peer, m.token⟩)
    (hconcludes : ∀ x ∈ e.conclusions event, Free ⟨x.2.peer, x.2.token⟩)
    (hexpire : ∀ k n, event = .expire k n → R e (e.expire k n))
    (hclock : ∀ now, event = .fire now ∨ event = .pass now → R e { e with now })
    (hexpireDue : ∀ now, event = .fire now → R (resumeDue now (beforeResuming now e))
      (expireDue now (resumeDue now (beforeResuming now e)))) :
    R e (e.step event) := by
  cases event with
  | submit peer m r => exact hsubmit peer m r rfl
  | cancel k => exact h.trans (h.withdrawn e k (hcancel k rfl)) (h.settle _)
  | handle peer decoded =>
    cases decoded with
    | error fault => exact h.quiet (Quiet.frame.reject e peer fault)
    | ok m =>
      have habsorbed := h.absorb e fun hresponse hadmits =>
        hdelivers peer m ⟨.inl rfl, hresponse, hadmits⟩
      have hconcluded := h.trans habsorbed (h.conclusions _ _ hconcludes)
      exact h.trans hconcluded (h.settle _)
  | absorb peer m =>
    exact h.absorb e fun hresponse hadmits => hdelivers peer m ⟨.inr rfl, hresponse, hadmits⟩
  | conclude outcome => exact h.conclude e (hconcludes (e, outcome) (List.mem_singleton.mpr rfl))
  | repeatDue now => exact h.repeatDue now e
  | sweepDue now => exact h.sweepDue now e
  | resumeDue now => exact h.quiet (.resumeDue e now)
  | expire k n => exact hexpire k n rfl
  | settle => exact h.settle e
  | announce id change => exact h.quiet (.announce e id change)
  | setState id state => exact h.quiet (.layers e _ _ _ _ _)
  | closeOutbox => exact h.quiet ⟨rfl, rfl, rfl, rfl, rfl, rfl, rfl, rfl⟩
  | serve service => exact h.quiet ⟨rfl, rfl, rfl, rfl, rfl, rfl, rfl, rfl⟩
  | fire now =>
    have hresumed := h.resumed now e (hclock now (.inl rfl)) hconcludes
    show R e (fire now e)
    rw [fire_eq]
    exact h.trans (h.trans hresumed (hexpireDue now rfl)) (h.settle _)
  | pass now => exact hclock now (.inr rfl)

end RequestFrame

/-! ## The clock -/

/-- No change to requests touches the clock. -/
theorem sameClock_frame : RequestFrame (fun e e' => e'.now = e.now) fun _ => True where
  trans h h' := h'.trans h
  quiet h := h.now
  delivered e peer m _ := by
    cases hc : e.conversations.get? ⟨peer, m.token⟩ with
    | none => exact (Quiet.deliver_of_none hc).now
    | some c => exact (Silent.deliver hc).now
  failed {e key c} failure _ _ := (Clerical.close_reportFailure e key c failure).now
  postponed _ _ _ := rfl
  withdrawn e key _ := (Clerical.withdraw e key).now
  collected {_ key rest} _ := (Clerical.withdraw _ key).now

/-- When timers fire, the clock shows their time. -/
theorem now_fire (now : Instant) (e : Engine) : (fire now e).now = now := by
  have hconcluded := Clerical.concludeAll (e.outgoing.fire e.outboxOpen now).1.events
    (repeatDue now { e with now })
  have hrepeated : (repeatDue now { e with now }).now = now := sameClock_frame.repeatDue now _
  have hswept := sameClock_frame.sweepDue now
    ((repeatDue now { e with now }).concludeAll (e.outgoing.fire e.outboxOpen now).1.events)
  have hresumed := Quiet.resumeDue (beforeResuming now e) now
  rw [(clerical_fire now e).now, hresumed.now]
  exact hswept.trans (hconcluded.now.trans hrepeated)

/-- Only the passing of time changes the clock. -/
theorem now_step (hfire : ∀ now, event ≠ .fire now) (hpass : ∀ now, event ≠ .pass now) :
    (e.step event).now = e.now := by
  refine sameClock_frame.step e event (fun peer m r _ => ?_) (fun _ _ => trivial)
    (fun _ _ _ => trivial) (fun _ _ => trivial) (fun _ _ _ => sameClock_frame.expire e _ trivial)
    (fun now hevent => ?_) fun now hevent => absurd hevent (hfire now)
  · refine sameClock_frame.submit e peer m r ?_ (fun _ s _ => ?_) (fun _ _ _ => rfl) fun _ _ => rfl
    · obtain ⟨tokens, hwith⟩ := withToken_eq e peer m
      rw [hwith]
    · exact (Silent.openConversation s _ r).now
  · exact absurd hevent (fun hevent => hevent.elim (hfire now) (hpass now))

/-- Where the parts of what is due happen at its time, the clock does not go back. -/
theorem now_le_step (htimely : event.Timely e) : e.now ≤ (e.step event).now := by
  cases event with
  | fire now => exact Nat.le_trans htimely (Nat.le_of_eq (now_fire now e).symm)
  | pass now => exact htimely
  | _ =>
    refine Nat.le_of_eq (Eq.symm (now_step ?_ ?_)) <;> exact fun _ => nofun

/-! ## Numbers of conversations -/

/-- A conversation with a number is open under a key, and its requester has heard of no answer. -/
def Unanswered (e : Engine) (key : ConversationKey) (number : Nat) : Prop :=
  ∃ c, e.conversations.get? key = some c ∧ c.number = number ∧ c.latest? = none

/-- A conversation begins with the next number. -/
theorem number_openConversation {r : Requester}
    (hc : (e.openConversation key r).conversations.get? key = some c) : c.number = e.nextNumber := by
  obtain ⟨_, _, _, hframe⟩ := dropConversation_frame e key
  rw [get?_openConversation, if_pos rfl, hframe] at hc
  rw [← Option.some.inj hc]

/-- The numbers of conversations and deadlines are among those that were given. -/
structure Counted (e : Engine) : Prop where
  conversations : ∀ key c, e.conversations.get? key = some c → c.number < e.nextNumber
  deadlines : ∀ d ∈ e.deadlines, d.number < e.nextNumber

/-- Numbers are given one after the other, and a conversation that is answered or over stays so. -/
structure Counts (e e' : Engine) : Prop where
  responseTimeout : e'.responseTimeout = e.responseTimeout
  nextNumber_le : e.nextNumber ≤ e'.nextNumber
  counted : e.Counted → e'.Counted
  unanswered : ∀ {key n}, e'.Unanswered key n → e.Unanswered key n ∨ e.nextNumber ≤ n

namespace Counts

/-- Numbers go up in steps that follow each other. -/
theorem trans (h : Counts e e') (h' : Counts e' e'') : Counts e e'' where
  responseTimeout := h'.responseTimeout.trans h.responseTimeout
  nextNumber_le := Nat.le_trans h.nextNumber_le h'.nextNumber_le
  counted hc := h'.counted (h.counted hc)
  unanswered hopen := by
    rcases h'.unanswered hopen with hbefore | hlater
    · exact h.unanswered hbefore
    · exact .inr (Nat.le_trans h.nextNumber_le hlater)

/-- No conversation begins, and none is taken for unanswered that was not. -/
theorem of_fewer (htimeout : e'.responseTimeout = e.responseTimeout)
    (hnext : e'.nextNumber = e.nextNumber)
    (hconv : ∀ k c', e'.conversations.get? k = some c' → ∃ c, e.conversations.get? k = some c ∧
      c'.number = c.number ∧ (c'.latest? = none → c.latest? = none))
    (hdeadlines : ∀ d ∈ e'.deadlines, d ∈ e.deadlines ∨
      ∃ c, e.conversations.get? d.key = some c ∧ d.number = c.number) : Counts e e' where
  responseTimeout := htimeout
  nextNumber_le := Nat.le_of_eq hnext.symm
  counted hc := by
    refine ⟨fun k c' hc' => ?_, fun d hd => ?_⟩
    · obtain ⟨c, hopen, hnumber, -⟩ := hconv k c' hc'
      rw [hnumber, hnext]
      exact hc.conversations k c hopen
    · rw [hnext]
      rcases hdeadlines d hd with hbefore | ⟨c, hopen, hnumber⟩
      · exact hc.deadlines d hbefore
      · rw [hnumber]
        exact hc.conversations _ c hopen
  unanswered := by
    rintro key n ⟨c', hc', hnumber', hnone⟩
    obtain ⟨c, hopen, hnumber, hlatest⟩ := hconv key c' hc'
    exact .inl ⟨c, hopen, hnumber.symm.trans hnumber', hlatest hnone⟩

/-- The conversations are the same, and at most some deadlines are gone. -/
theorem of_same (htimeout : e'.responseTimeout = e.responseTimeout)
    (hnext : e'.nextNumber = e.nextNumber) (hconv : e'.conversations = e.conversations)
    (hdeadlines : ∀ d ∈ e'.deadlines, d ∈ e.deadlines) : Counts e e' := by
  refine of_fewer htimeout hnext (fun k c hc => ?_) fun d hd => .inl (hdeadlines d hd)
  rw [hconv] at hc
  exact ⟨c, hc, rfl, id⟩

/-- A quiet step counts nothing. -/
theorem of_quiet (h : Quiet e e') : Counts e e' :=
  of_same h.responseTimeout h.nextNumber h.conversations fun _ hd => h.deadlines ▸ hd

/-- The conversation under a key ends, with or without a report. -/
theorem of_closed (htimeout : e'.responseTimeout = e.responseTimeout)
    (hnext : e'.nextNumber = e.nextNumber) (hdeadlines : e'.deadlines = e.deadlines)
    (hconv : ∀ k, e'.conversations.get? k = if key = k then none else e.conversations.get? k) :
    Counts e e' := by
  refine of_fewer htimeout hnext (fun k c hc => ?_) fun d hd => .inl (hdeadlines ▸ hd)
  rw [hconv] at hc
  split at hc
  · cases hc
  · exact ⟨c, hc, rfl, id⟩

/-- A conversation that is closed keeps its number from the others. -/
theorem closeConversation (e : Engine) (key : ConversationKey) :
    Counts e (e.closeConversation key) :=
  of_closed rfl rfl rfl (get?_closeConversation e key)

/-- A conversation may be closed with a report. -/
theorem close_report (e : Engine) (key : ConversationKey) (c : Conversation) (r : Report)
    (outcome : Except SendFailure Message) :
    Counts e ((e.closeConversation key).report key c r outcome) := by
  obtain ⟨_, _, _, hframe⟩ := report_frame (e.closeConversation key) key c r outcome
  refine of_closed ?_ ?_ ?_ (get?_close_report e key c r outcome) <;> rw [hframe] <;> rfl

/-- To withdraw a conversation gives no number. -/
theorem withdraw (e : Engine) (key : ConversationKey) : Counts e (e.withdraw key) := by
  obtain ⟨_, _, _, hframe⟩ := dropConversation_frame e key
  have hconv : ∀ k, (e.withdraw key).conversations.get? k = _ := get?_dropConversation e key
  refine of_closed ?_ ?_ ?_ hconv <;> unfold Engine.withdraw <;> rw [hframe]

/-- A response gives no number. -/
theorem deliver (e : Engine) (peer : Endpoint) (m : Message) : Counts e (e.deliver peer m) := by
  cases hc : e.conversations.get? ⟨peer, m.token⟩ with
  | none => exact of_quiet (Quiet.deliver_of_none hc)
  | some c =>
    cases hnotice : m.notice? with
    | none =>
      rw [deliver_of_final hc hnotice]
      exact close_report e _ c _ _
    | some number =>
      by_cases htakes : c.Takes e.now number
      · rw [deliver_of_takes hc hnotice htakes]
        let c' : Conversation := { c with latest? := some (number, e.now) }
        obtain ⟨_, _, _, hframe⟩ := report_frame
          { e with conversations := e.conversations.insert ⟨peer, m.token⟩ c' } ⟨peer, m.token⟩ c'
          (.response m) (.ok m)
        refine of_fewer (by rw [reportResponse, hframe]) (by rw [reportResponse, hframe])
          (fun k d hd => ?_) fun d hd => .inl (by rwa [reportResponse, hframe] at hd)
        rw [get?_insert_report] at hd
        split at hd
        · next hk =>
          obtain rfl := Option.some.inj hd
          exact ⟨c, hk ▸ hc, rfl, fun hnone => absurd hnone (Option.some_ne_none _)⟩
        · exact ⟨d, hd, rfl, id⟩
      · rw [deliver_of_not_takes hc hnotice htakes]
        exact of_quiet (.refl e)

/-- No event gives a number but a request. -/
theorem frame : RequestFrame Counts fun _ => True where
  trans := trans
  quiet := of_quiet
  delivered e peer m _ := deliver e peer m
  failed {e key c} failure _ _ := close_report e key c _ _
  postponed {e key c} due _ hc := by
    refine of_fewer rfl rfl (fun _ c hc => ⟨c, hc, rfl, id⟩) fun d hd => ?_
    rcases List.mem_append.mp hd with hbefore | hnew
    · exact .inl hbefore
    · obtain rfl := List.mem_singleton.mp hnew
      exact .inr ⟨c, hc, rfl⟩
  withdrawn e key _ := withdraw e key
  collected {e key rest} _ := by
    have hnext : Counts e { e with withdrawing := rest } := of_same rfl rfl rfl fun _ hd => hd
    exact hnext.trans (withdraw _ key)

/-- Requests that are given up are closed one by one. -/
theorem expireAll (due : List Deadline) (e : Engine) : Counts e (e.expireAll due) := by
  induction due generalizing e with
  | nil => exact of_quiet (.refl e)
  | cons d rest ih => exact (frame.expire e d.number trivial).trans (ih _)

/-- Deadlines may be dropped. -/
theorem dropDeadlines (e : Engine) (kept : Deadline → Bool) :
    Counts e { e with deadlines := e.deadlines.filter kept } :=
  of_same rfl rfl rfl fun _ hd => (List.mem_filter.mp hd).1

/-- Requests whose time is over are given up, and no number is given. -/
theorem expireDue (now : Instant) (e : Engine) : Counts e (expireDue now e) :=
  (dropDeadlines e _).trans (expireAll _ _)

/-- A conversation that begins has the next number. -/
theorem openConversation (e : Engine) (key : ConversationKey) (r : Requester) :
    Counts e (e.openConversation key r) := by
  obtain ⟨_, _, _, hframe⟩ := dropConversation_frame e key
  have hnumber : (e.dropConversation key).nextNumber = e.nextNumber := by rw [hframe]
  have hnext : (e.openConversation key r).nextNumber = e.nextNumber + 1 := congrArg (· + 1) hnumber
  have htimeout : (e.openConversation key r).responseTimeout = e.responseTimeout := by
    unfold Engine.openConversation
    rw [hframe]
  have hdeadlines : (e.openConversation key r).deadlines = e.deadlines := by
    unfold Engine.openConversation
    rw [hframe]
  refine ⟨htimeout, by omega, fun hc => ⟨fun k c hopen => ?_, fun d hd => ?_⟩, ?_⟩
  · rw [get?_openConversation] at hopen
    split at hopen
    · obtain rfl := Option.some.inj hopen
      rw [hnext, hnumber]
      exact Nat.lt_succ_self _
    · rw [hnext]
      exact Nat.lt_succ_of_lt (hc.conversations k c hopen)
  · rw [hdeadlines] at hd
    rw [hnext]
    exact Nat.lt_succ_of_lt (hc.deadlines d hd)
  · rintro k n ⟨c, hopen, rfl, hnone⟩
    rw [get?_openConversation] at hopen
    split at hopen
    · obtain rfl := Option.some.inj hopen
      exact .inr (Nat.le_of_eq hnumber.symm)
    · exact .inl ⟨c, hopen, rfl, hnone⟩

/-- A request that is submitted gets the next number, or none. -/
theorem submit (e : Engine) (peer : Endpoint) (m : Message) (r : Requester) :
    Counts e (e.submit peer m r).2 := by
  refine frame.submit e peer m r ?_ (fun _ _ _ => openConversation _ _ r)
    (fun _ _ _ => closeConversation _ _) fun s _ => ?_
  · obtain ⟨tokens, hwith⟩ := withToken_eq e peer m
    rw [hwith]
    exact of_same rfl rfl rfl fun _ hd => hd
  · exact of_same rfl rfl rfl fun _ hd => hd

/-- **Every event counts on.** -/
theorem step (e : Engine) (event : Event) : Counts e (e.step event) :=
  frame.step e event (fun peer m r _ => submit e peer m r) (fun _ _ => trivial)
    (fun _ _ _ => trivial) (fun _ _ => trivial) (fun _ n _ => frame.expire e n trivial)
    (fun _ _ => of_same rfl rfl rfl fun _ hd => hd) fun now _ => expireDue now _

/-- So numbers go up throughout. -/
theorem run (events : List Event) (e : Engine) : Counts e (e.run events) := by
  induction events generalizing e with
  | nil => exact of_quiet (.refl e)
  | cons event rest ih => exact (step e event).trans (ih _)

end Counts

/-- At the start no number has been given. -/
theorem counted_start (c : Config) (chances : Chances) (service : Service)
    (resources : List (String × Resource)) : (start c chances service resources).Counted where
  conversations key conversation hc := by simp [start] at hc
  deadlines d hd := by simp [start] at hd

end Coap.Engine
