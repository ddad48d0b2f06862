/-
# Answers that do not come in time

A request that is acknowledged without an answer gets a deadline, and the deadline is never taken
back: whatever becomes of the request, it is dealt with in its time.  It then finds the request
outstanding, and gives it up; or it finds that the request was answered or is over, and does
nothing.  What tells these apart for good is that a conversation that was answered stays so, and
that no two conversations have one number.
-/
import Coap.Proofs.Engine.Outstanding

namespace Coap.Engine

variable {e e' : Engine} {key : ConversationKey} {c : Conversation} {r : Requester}
  {due? : Option Instant} {due t : Instant} {peer : Endpoint} {m : Message} {event : Event}
  {outcome : ExchangeEvent}

/-! ## The acknowledgement -/

/-- A request under a key is acknowledged without an answer, or such an acknowledgement that came
in before is concluded. -/
def Defers (e : Engine) (key : ConversationKey) : Event → Prop
  | .handle peer (.ok m) => peer = key.peer ∧ ∃ id opened, m = .emptyAck id ∧
    e.outgoing.openMessage? ⟨peer, id⟩ = some opened ∧ opened.token = key.token
  | .conclude outcome => (⟨outcome.peer, outcome.token⟩ : ConversationKey) = key ∧
    outcome.outcome = .acknowledged
  | _ => False

theorem Defers.timely (h : e.Defers key event) : event.Timely e := by
  cases event with
  | handle | conclude => trivial
  | _ => exact h.elim

/-- Either way an acknowledged exchange is concluded, and nothing else happens to requests. -/
theorem concluded_of_defers (h : e.Defers key event) : ∃ e₁ outcome, Quiet e e₁ ∧
    (⟨outcome.peer, outcome.token⟩ : ConversationKey) = key ∧ outcome.outcome = .acknowledged ∧
      (e.step event = (e₁.conclude outcome).settle ∨ e.step event = e₁.conclude outcome) := by
  cases event with
  | handle p decoded =>
    cases decoded with
    | error fault => exact h.elim
    | ok m =>
      obtain ⟨rfl, id, opened, rfl, hopened, htoken⟩ := h
      obtain ⟨x, hx, rfl⟩ := Option.map_eq_some_iff.mp hopened
      have hclosed : (e.outgoing.receive key.peer (.emptyAck id)).2.1 =
          some ⟨key.peer, x.message.token, id, .acknowledged⟩ := by
        have htype : (Message.emptyAck id).type = .acknowledgement := rfl
        have hid : (Message.emptyAck id).id = id := rfl
        have hrequest : (Message.emptyAck id).isRequest = false := rfl
        simp [Outgoing.receive, htype, hid, hrequest, hx]
      have hresponse : ¬ (Message.emptyAck id).isResponse := Bool.false_ne_true
      refine ⟨e.absorb key.peer (.emptyAck id), ⟨key.peer, x.message.token, id, .acknowledged⟩,
        Quiet.absorb hresponse e key.peer, ?_, rfl, .inl ?_⟩
      · rw [htoken]
      · show e.receive key.peer (.emptyAck id) = _
        rw [receive_eq_absorb, hclosed]
        rfl
  | conclude outcome => exact ⟨e, outcome, .refl e, h.1, h.2, .inr rfl⟩
  | _ => exact h.elim

/-! ## Requests that are given up -/

/-- A request was given up at a time for want of an answer: its conversation is over, its token is
free, and its requester was told that, and nothing else. -/
structure Lapsed (e : Engine) (key : ConversationKey) (r : Requester) (t : Instant) : Prop where
  closed : e.conversations.get? key = none
  released : ¬ e.Reserves key
  told : e.toldTo r.name = [(t, r.worded (.failed (.noResponse e.responseTimeout))
    (.error (.noResponse e.responseTimeout)))]
  deaf : e.Deaf r.name

theorem toldTo_of_reportsTo {name : String} (h : e.reportsTo name = []) : e.toldTo name = [] := by
  rw [← map_toldTo] at h
  exact List.map_eq_nil_iff.mp h

/-- The deadline finds the request outstanding. -/
theorem Outstanding.lapsed (ho : e.Outstanding key c due?)
    (hnothing : e.reportsTo c.requester.name = []) :
    (e.expire key c.number).Lapsed key c.requester e.now := by
  have hexpire : e.expire key c.number = (e.closeConversation key).report key c
      (.failed (.noResponse e.responseTimeout)) (.error (.noResponse e.responseTimeout)) := by
    simp only [expire, ho.here, ho.unanswered, Option.isNone_none, and_self, if_true]
    unfold reportFailure
    cases c.requester.interest <;> rfl
  obtain ⟨_, _, _, hframe⟩ := report_frame (e.closeConversation key) key c
    (.failed (.noResponse e.responseTimeout)) (.error (.noResponse e.responseTimeout))
  have htimeout : (e.expire key c.number).responseTimeout = e.responseTimeout := by
    rw [hexpire, hframe]
    rfl
  refine ⟨?_, ?_, ?_, fun k c' hc' hl => ?_⟩
  · rw [hexpire, get?_close_report, if_pos rfl]
  · rw [hexpire, hframe]
    exact fun hmem => (TokenPool.mem_taken_release.mp hmem).2 ⟨rfl, rfl⟩
  · rw [htimeout, hexpire, toldTo_report, if_pos ho.listens]
    show e.toldTo c.requester.name ++ _ = _
    rw [toldTo_of_reportsTo hnothing]
    rfl
  · rw [hexpire, get?_close_report] at hc'
    split at hc'
    · cases hc'
    · next hk => exact hk (ho.only k c' hc' hl.1).symm

namespace Lapsed

/-- The requester is told nothing more as long as its name is not used again. -/
theorem toldTo_run (h : e.Lapsed key r t) {events : List Event}
    (hname : ∀ event ∈ events, event.requester? ≠ some r.name) :
    (e.run events).toldTo r.name = e.toldTo r.name :=
  (Grows.run events e).toldTo_eq (h.deaf.evolves (.run events hname e)).1

/-- Conversations may end, and the books be kept. -/
theorem of_ends (h : e.Lapsed key r t) (hclerical : Clerical e e') (hbooks : Books e e')
    (hevolves : Evolves r e e') (hgrows : Grows e e') (hcounts : Counts e e') :
    e'.Lapsed key r t := by
  obtain ⟨htold, hdeaf⟩ := h.deaf.evolves hevolves
  have hclosed : e'.conversations.get? key = none := by
    refine Option.eq_none_iff_forall_ne_some.mpr fun c' hc' => ?_
    obtain ⟨c₀, hc₀, -⟩ := hclerical.kept key c' hc'
    exact absurd (h.closed.symm.trans hc₀) (by simp)
  refine ⟨hclosed, ?_, ?_, hdeaf⟩
  · rcases hbooks.agree key with ⟨hreserves, -⟩ | hagree
    · rw [hreserves]
      exact h.released
    · rw [hagree, Converses, hclosed]
      exact Bool.false_ne_true
  · rw [hgrows.toldTo_eq htold, hcounts.responseTimeout]
    exact h.told

theorem expireAll (h : e.Lapsed key r t) (due : List Deadline) :
    (e.expireAll due).Lapsed key r t :=
  h.of_ends (.expireAll due e) (Books.frame.expireAll due e) (Evolves.frame.expireAll due e)
    (Grows.frame.expireAll due e) (.expireAll due e)

theorem settle (h : e.Lapsed key r t) : e.settle.Lapsed key r t :=
  h.of_ends (.settle e) (Books.frame.settle e) (Evolves.frame.settle e) (Grows.frame.settle e)
    (Counts.frame.settle e)

end Lapsed

/-! ## The deadline -/

/-- An acknowledgement sets the deadline, or gives the request up if no time is left. -/
theorem Outstanding.concluded (ho : e.Outstanding key c none)
    (hkey : (⟨outcome.peer, outcome.token⟩ : ConversationKey) = key)
    (hacknowledged : outcome.outcome = .acknowledged)
    (hnothing : e.reportsTo c.requester.name = []) :
    let due := Instant.tick (e.now + e.responseTimeout)
    (e.now < due → (e.conclude outcome).Outstanding key c (some due) ∧
      (e.conclude outcome).reportsTo c.requester.name = [] ∧
      (e.conclude outcome).deadlines = e.deadlines ++ [⟨due, key, c.number⟩]) ∧
    (due ≤ e.now → (e.conclude outcome).Lapsed key c.requester e.now) := by
  intro due
  subst hkey
  have hquiet : Quiet e { e with subscriptions := e.subscriptions.settle outcome } :=
    Quiet.layers e _ _ _ _ _
  have hopen := ho.here
  have hunanswered : ¬ c.latest?.isSome = true := by simp [ho.unanswered]
  constructor
  · -- there is no deadline yet, so the one that is set is the only one
    intro hearly
    have hset : e.conclude outcome = { e with
        subscriptions := e.subscriptions.settle outcome
        deadlines := e.deadlines ++ [⟨due, ⟨outcome.peer, outcome.token⟩, c.number⟩] } := by
      unfold conclude
      simp only [hopen, hacknowledged, ExchangeOutcome.failure?, if_neg hunanswered]
      rw [if_neg (Nat.not_le.mpr hearly)]
    rw [hset]
    refine ⟨ho.congr rfl rfl rfl fun t => ?_, hnothing, rfl⟩
    have hbefore : (⟨t, ⟨outcome.peer, outcome.token⟩, c.number⟩ : Deadline) ∉ e.deadlines :=
      fun hmem => Option.some_ne_none t ((ho.due_iff t).mp hmem).symm
    simp [hbefore, eq_comm]
  · intro hlate
    obtain ⟨ho', htold⟩ := Endures.of_quiet hquiet ho
    have hexpired : e.conclude outcome =
        ({ e with subscriptions := e.subscriptions.settle outcome } : Engine).expire
          ⟨outcome.peer, outcome.token⟩ c.number := by
      unfold conclude
      simp only [hopen, hacknowledged, ExchangeOutcome.failure?, if_neg hunanswered]
      rw [if_pos hlate]
    rw [hexpired]
    exact ho'.lapsed (htold.trans hnothing)

/-- The same for the event that acknowledges a request. -/
theorem Outstanding.deferred (ho : e.Outstanding key c none)
    (hnothing : e.reportsTo c.requester.name = []) (hack : e.Defers key event) :
    let due := Instant.tick (e.now + e.responseTimeout)
    (e.now < due → (e.step event).Outstanding key c (some due) ∧
      (e.step event).reportsTo c.requester.name = [] ∧
      (e.step event).deadlines = e.deadlines ++ [⟨due, key, c.number⟩]) ∧
    (due ≤ e.now → (e.step event).Lapsed key c.requester e.now) := by
  intro due
  obtain ⟨e₁, outcome, hquiet, hkey, hacknowledged, hstep⟩ := concluded_of_defers hack
  obtain ⟨ho₁, htold₁⟩ := Endures.of_quiet hquiet ho
  obtain ⟨hset, hlapsed⟩ := ho₁.concluded hkey hacknowledged (htold₁.trans hnothing)
  rw [hquiet.now, hquiet.responseTimeout, hquiet.deadlines] at hset
  rw [hquiet.now, hquiet.responseTimeout] at hlapsed
  rcases hstep with hstep | hstep
  · rw [hstep]
    refine ⟨fun hearly => ?_, fun hlate => (hlapsed hlate).settle⟩
    obtain ⟨ho₂, htold₂, hdeadlines⟩ := hset hearly
    obtain ⟨ho₃, htold₃⟩ := Endures.frame.settle (e₁.conclude outcome) ho₂
    exact ⟨ho₃, htold₃.trans htold₂, (deadlines_settle _).trans hdeadlines⟩
  · rw [hstep]
    exact ⟨hset, hlapsed⟩

/-- Among the deadlines that are due, that of the request finds it outstanding. -/
theorem Outstanding.lapsed_expireDue (ho : e.Outstanding key c (some due))
    (hnothing : e.reportsTo c.requester.name = []) (hnow : e.now = due) :
    (expireDue due e).Lapsed key c.requester due := by
  -- the deadlines that are due are dealt with in turn, and those before it are of other requests
  obtain ⟨earlier, later, hdue, hfirst⟩ : ∃ earlier later,
      e.deadlines.filter (·.due ≤ due) = earlier ++ ⟨due, key, c.number⟩ :: later ∧
        ⟨due, key, c.number⟩ ∉ earlier := by
    refine List.eq_append_cons_of_mem (List.mem_filter.mpr ⟨(ho.due_iff due).mpr rfl, ?_⟩)
    exact decide_eq_true (Nat.le_refl due)
  let e₁ : Engine := { e with deadlines := e.deadlines.filter (due < ·.due) }
  have ho₁ : e₁.Outstanding key c none := by
    refine ho.congr rfl rfl rfl fun t => ?_
    refine ⟨fun hmem => ?_, fun h => absurd h.symm (Option.some_ne_none t)⟩
    obtain ⟨hmem, hlater⟩ := List.mem_filter.mp hmem
    obtain rfl := Option.some.inj ((ho.due_iff t).mp hmem)
    exact absurd (of_decide_eq_true hlater) (Nat.lt_irrefl _)
  have hothers : ∀ d ∈ earlier, ¬ (d.key = key ∧ d.number = c.number) := by
    rintro ⟨u, k, n⟩ hd ⟨rfl, rfl⟩
    have hmem : (⟨u, k, c.number⟩ : Deadline) ∈ e.deadlines.filter (·.due ≤ due) := by
      rw [hdue]
      exact List.mem_append_left _ hd
    obtain rfl := Option.some.inj ((ho.due_iff u).mp (List.mem_filter.mp hmem).1)
    exact hfirst hd
  obtain ⟨ho₂, htold₂⟩ := Endures.expireAll earlier hothers e₁ ho₁
  have hlapsed := ho₂.lapsed (htold₂.trans hnothing)
  rw [(Clerical.expireAll earlier e₁).now, show e₁.now = due from hnow] at hlapsed
  have hexpired : expireDue due e =
      ((e₁.expireAll earlier).expire key c.number).expireAll later := by
    unfold expireDue
    rw [hdue]
    exact List.foldl_append ..
  rw [hexpired]
  exact hlapsed.expireAll later

/-- **At its deadline a request that is outstanding is given up.** -/
theorem Outstanding.lapsed_fire (ho : e.Outstanding key c (some due))
    (hnothing : e.reportsTo c.requester.name = [])
    (halone : e.LeavesAlone key (.fire due)) :
    (fire due e).Lapsed key c.requester due := by
  have hclock : Endures key c (some due) e { e with now := due } := fun ho =>
    ⟨ho.congr rfl rfl rfl ho.due_iff, rfl⟩
  obtain ⟨ho₁, htold₁⟩ := Endures.frame.resumed due e hclock halone.not_concludes ho
  have hnow₁ : (resumeDue due (beforeResuming due e)).now = due := by
    rw [← (clerical_fire due e).now, now_fire]
  rw [fire_eq]
  exact (ho₁.lapsed_expireDue (htold₁.trans hnothing) hnow₁).settle

/-- On time, the clock comes to the deadline of a request only by dealing with all that is due
then. -/
theorem Outstanding.before_due (ho : e.Outstanding key c (some due)) (hontime : e.OnTime event)
    (hbefore : e.now < due) (hother : event ≠ .fire due) : (e.step event).now < due := by
  have hdeadline : (⟨due, key, c.number⟩ : Deadline) ∈ e.deadlines := (ho.due_iff due).mpr rfl
  by_cases hfire : ∃ now, event = .fire now
  · obtain ⟨now, rfl⟩ := hfire
    have hle : now ≤ due := hontime.2 _ hdeadline hbefore
    have hne : now ≠ due := fun hnow => hother (congrArg Event.fire hnow)
    have hnow : (e.step (.fire now)).now = now := now_fire now e
    rw [hnow]
    exact Nat.lt_of_le_of_ne hle hne
  · by_cases hpass : ∃ now, event = .pass now
    · obtain ⟨now, rfl⟩ := hpass
      exact hontime.2 _ hdeadline hbefore
    · rw [now_step (fun now h => hfire ⟨now, h⟩) (fun now h => hpass ⟨now, h⟩)]
      exact hbefore

/-! ## Requests that were answered, or are over -/

/-- What was answered or is over stays so, as its number is not given again. -/
theorem Counts.not_unanswered {n : Nat} (h : Counts e e') (hgiven : n < e.nextNumber)
    (hnot : ¬ e.Unanswered key n) : ¬ e'.Unanswered key n := by
  intro hopen
  rcases h.unanswered hopen with hbefore | hlater
  · exact hnot hbefore
  · exact absurd hgiven (Nat.not_lt.mpr hlater)

/-- A response that is delivered is an answer. -/
theorem not_unanswered_deliver (e : Engine) (peer : Endpoint) (m : Message) (n : Nat) :
    ¬ (e.deliver peer m).Unanswered ⟨peer, m.token⟩ n := by
  rintro ⟨c', hc', -, hunanswered⟩
  cases hc : e.conversations.get? ⟨peer, m.token⟩ with
  | none =>
    rw [(Quiet.deliver_of_none hc).conversations, hc] at hc'
    cases hc'
  | some c =>
    cases hnotice : m.notice? with
    | none =>
      rw [deliver_of_final hc hnotice, reportResponse, get?_close_report, if_pos rfl] at hc'
      cases hc'
    | some number =>
      by_cases htakes : c.Takes e.now number
      · rw [deliver_of_takes hc hnotice htakes, get?_insert_report, if_pos rfl] at hc'
        rw [← Option.some.inj hc'] at hunanswered
        cases hunanswered
      · -- only one that has heard of a notification does not take it
        rw [deliver_of_not_takes hc hnotice htakes, hc] at hc'
        obtain rfl := Option.some.inj hc'
        refine htakes fun previous t hlatest => ?_
        rw [hunanswered] at hlatest
        cases hlatest

theorem not_unanswered_of_delivers {n : Nat} (hdelivers : e.Delivers event peer m)
    (hgiven : n < e.nextNumber) : ¬ (e.step event).Unanswered ⟨peer, m.token⟩ n := by
  obtain ⟨hbrings, hresponse, hadmits⟩ := hdelivers
  obtain ⟨e₁, hquiet, habsorb⟩ := absorb_of_response hresponse e peer
  rw [if_pos hadmits] at habsorb
  have hnot : ¬ (e.absorb peer m).Unanswered ⟨peer, m.token⟩ n := by
    rw [habsorb]
    exact not_unanswered_deliver e₁ peer m n
  have hgiven' : n < (e.absorb peer m).nextNumber := by
    have hcounts : Counts e (e.absorb peer m) := Counts.frame.absorb e fun _ _ => trivial
    exact Nat.lt_of_lt_of_le hgiven hcounts.nextNumber_le
  rcases hbrings with rfl | rfl
  · refine Counts.not_unanswered ?_ hgiven' hnot
    show Counts _ (e.receive peer m)
    rw [receive_eq_absorb]
    exact (Counts.frame.concludeAll _ (fun _ _ => trivial) _).trans (Counts.frame.settle _)
  · exact hnot

/-- A request is over when it is withdrawn, or when another one gets its token. -/
theorem not_unanswered_of_supersedes {n : Nat} (hsupersedes : e.Supersedes key event)
    (hgiven : n < e.nextNumber) : ¬ (e.step event).Unanswered key n := by
  cases event with
  | cancel k =>
    obtain rfl : k = key := hsupersedes
    have hnot : ¬ (e.withdraw k).Unanswered k n := by
      rintro ⟨c, hc, -⟩
      have hc' : (e.dropConversation k).conversations.get? k = some c := hc
      rw [get?_dropConversation, if_pos rfl] at hc'
      cases hc'
    have hgiven' := Nat.lt_of_lt_of_le hgiven (Counts.withdraw e k).nextNumber_le
    exact (Counts.frame.settle (e.withdraw k)).not_unanswered hgiven' hnot
  | submit peer m r =>
    obtain ⟨sent, hsent, rfl⟩ := hsupersedes
    obtain ⟨tokens, hwith⟩ := withToken_eq e peer m
    let opened : Engine := ({ e with tokens } : Engine).openConversation ⟨peer, sent.token⟩ r
    rintro ⟨c, hc, hnumber, hunanswered⟩
    obtain ⟨s, hquiet, hsettled⟩ := submit_of_open hsent hc
    rw [hwith] at hquiet
    have hcounts : Counts opened (e.step (.submit peer m r)) := by
      show Counts opened (e.submit peer m r).2
      rw [hsettled]
      exact (Counts.of_quiet hquiet).trans (Counts.frame.settle s)
    -- the other request has a number of its own
    have hnot : ¬ opened.Unanswered ⟨peer, sent.token⟩ n := by
      rintro ⟨c₀, hc₀, hsame, -⟩
      have hnext : c₀.number = e.nextNumber :=
        number_openConversation (e := { e with tokens }) hc₀
      rw [← hsame, hnext] at hgiven
      exact Nat.lt_irrefl _ hgiven
    have hgiven' : n < opened.nextNumber := Nat.lt_of_lt_of_le hgiven
      (Counts.openConversation { e with tokens } ⟨peer, sent.token⟩ r).nextNumber_le
    exact hcounts.not_unanswered hgiven' hnot ⟨c, hc, hnumber, hunanswered⟩
  | _ => exact hsupersedes.elim

theorem expire_of_answered {n : Nat} (h : ¬ e.Unanswered key n) : e.expire key n = e := by
  unfold expire
  split
  · rfl
  · next c hc =>
    rw [if_neg fun hdue => h ⟨c, hc, hdue.1, Option.isNone_iff_eq_none.mp hdue.2⟩]

/-- **The deadline of a request that was answered or is over makes no difference.** -/
theorem expireAll_of_answered {n : Nat} (due : List Deadline) (hgiven : n < e.nextNumber)
    (hnot : ¬ e.Unanswered key n) :
    e.expireAll due = e.expireAll (due.filter fun d => ¬ (d.key = key ∧ d.number = n)) := by
  induction due generalizing e with
  | nil => rfl
  | cons d rest ih =>
    by_cases hd : d.key = key ∧ d.number = n
    · obtain ⟨rfl, rfl⟩ := hd
      have hsame : e.expire d.key d.number = e := expire_of_answered hnot
      show (e.expire d.key d.number).expireAll rest = _
      rw [hsame, ih hgiven hnot, List.filter_cons_of_neg (by simp)]
    · have hcounts : Counts e (e.expire d.key d.number) := Counts.frame.expire e d.number trivial
      have hkept : decide (¬ (d.key = key ∧ d.number = n)) = true := decide_eq_true hd
      rw [List.filter_cons, if_pos hkept]
      exact ih (Nat.lt_of_lt_of_le hgiven hcounts.nextNumber_le)
        (hcounts.not_unanswered hgiven hnot)

/-! ## From the beginning -/

/-- A request was given up at a time: its conversation is over and its token free, and whatever
happens, as long as no other request is submitted under its name, its requester is told once that
there was no answer within the given time, and nothing else. -/
structure GaveUp (e : Engine) (key : ConversationKey) (r : Requester) (timeout : Duration)
    (t : Instant) : Prop where
  closed : e.conversations.get? key = none
  released : ¬ e.Reserves key
  told : ∀ events : List Event, (∀ event ∈ events, event.requester? ≠ some r.name) →
    (e.run events).toldTo r.name =
      [(t, r.worded (.failed (.noResponse timeout)) (.error (.noResponse timeout)))]

theorem Lapsed.gaveUp (h : e.Lapsed key r t) : e.GaveUp key r e.responseTimeout t :=
  ⟨h.closed, h.released, fun _ hname => (h.toldTo_run hname).trans h.told⟩

/-- **A request that is acknowledged and not answered is given up at its deadline, and no other.**
A request is submitted at any time under a name that no other request uses, and its conversation
is open.  The handlers of the node may behave in another way from any event on.

* As long as histories leave it alone and deal with all deadlines on time, it waits.  Once it is
  acknowledged without an answer its deadline is set.  Before the deadline it is still open, with
  its token in use, and its requester has been told nothing; and the clock can come to the deadline
  only by dealing with all that is due then.  After that it was given up, at the time of the
  deadline.
* If ever a response was delivered under its token, or it was withdrawn, or another request got its
  token, then whatever happens afterwards its deadline does nothing, by itself or among all that is
  due at a time. -/
theorem given_up_at_deadline (config : Config) (chances : Chances) (service : Service)
    (resources : List (String × Resource)) (before : List Event) (peer : Endpoint)
    (m sent : Message) (r : Requester) (c : Conversation)
    (hname : ∀ event ∈ before, event.requester? ≠ some r.name) :
    let e := (start config chances service resources).run before
    let submitted := e.step (.submit peer m r)
    let key : ConversationKey := ⟨peer, sent.token⟩
    (e.withToken peer m).1 = .ok sent → submitted.conversations.get? key = some c →
    (∀ waiting ack, (∀ event ∈ waiting, event.requester? ≠ some r.name) →
      submitted.Undisturbed key waiting → (submitted.run waiting).Defers key ack →
      let asked := submitted.run waiting
      let acked := asked.step ack
      let due := Instant.tick (asked.now + config.exchangeLifetime)
      (due ≤ asked.now → acked.GaveUp key r config.exchangeLifetime due) ∧
      (asked.now < due → acked.deadlines = asked.deadlines ++ [⟨due, key, c.number⟩]) ∧
      ∀ later, (∀ event ∈ later, event.requester? ≠ some r.name) → acked.Undisturbed key later →
        let s := acked.run later
        s.now < due →
          (s.conversations.get? key = some c ∧ s.Reserves key ∧ s.toldTo r.name = []) ∧
          ∀ event, s.LeavesAlone key event → s.OnTime event →
            (event ≠ .fire due → (s.step event).now < due) ∧
            (event = .fire due → (s.step event).GaveUp key r config.exchangeLifetime due)) ∧
    ∀ earlier event after,
      let s := submitted.run earlier
      (s.Supersedes key event ∨ ∃ response, s.Delivers event peer response ∧
        response.token = sent.token) →
      let later := (s.step event).run after
      later.expire key c.number = later ∧
      ∀ now, let s := resumeDue now (beforeResuming now later)
        let left : Engine := { s with deadlines := s.deadlines.filter fun d => now < d.due }
        fire now later = (left.expireAll ((s.deadlines.filter fun d => d.due ≤ now).filter
          fun d => ¬ (d.key = key ∧ d.number = c.number))).settle := by
  intro e submitted key hsent hopen
  have hstart := Counts.run before (start config chances service resources)
  have hcounted : e.Counted := hstart.counted (counted_start config chances service resources)
  have hcovered : e.Covered := (covered_start config chances service resources).run before
  have hfollows : e.Follows r none := by
    refine Follows.run hname fun k c hc => ?_
    simp [start] at hc
  obtain ⟨hnothing, hdeaf⟩ := (deaf_start config chances service resources r.name).evolves
    (Evolves.run before hname _)
  obtain ⟨ho, hrequester, htold⟩ : submitted.Outstanding key c none ∧ c.requester = r ∧
      submitted.reportsTo r.name = [] :=
    outstanding_submit hcounted hcovered hfollows hdeaf hnothing hsent hopen
  subst hrequester
  have hsubmitted : Counts (start config chances service resources) submitted :=
    hstart.trans (Counts.step e _)
  constructor
  · -- the request is outstanding in three stages: it waits, is acknowledged, and waits again
    intro waiting ack hwaiting hundisturbed hack asked acked due
    obtain ⟨ho₁, htold₁⟩ : asked.Outstanding key c none ∧ asked.reportsTo c.requester.name = _ :=
      ho.run hundisturbed hwaiting fun t h => absurd h.symm (Option.some_ne_none t)
    have hasked : Counts (start config chances service resources) asked :=
      hsubmitted.trans (Counts.run waiting submitted)
    have hacked : Counts (start config chances service resources) acked :=
      hasked.trans (Counts.step asked ack)
    have htimeout : asked.responseTimeout = config.exchangeLifetime := hasked.responseTimeout
    obtain ⟨hset, hlapsed⟩ := ho₁.deferred (htold₁.trans htold) hack
    rw [htimeout] at hset hlapsed
    refine ⟨fun hlate => ?_, fun hearly => (hset hearly).2.2, ?_⟩
    · -- a deadline that is over at once, as the timers round a time up
      have hnow : asked.now = due :=
        Nat.le_antisymm (Nat.le_trans (Nat.le_add_right _ _) (Instant.le_tick _)) hlate
      have hgaveUp : acked.GaveUp key c.requester acked.responseTimeout asked.now :=
        (hlapsed hlate).gaveUp
      have htimeout' : acked.responseTimeout = config.exchangeLifetime := hacked.responseTimeout
      rwa [htimeout', hnow] at hgaveUp
    · intro later hlater hundisturbed' s hbefore
      have hs : Counts (start config chances service resources) s :=
        hacked.trans (Counts.run later acked)
      have hearly : asked.now < due := by
        have hforward : acked.now ≤ s.now := now_le_run hundisturbed'
        have hack' : asked.now ≤ acked.now := now_le_step hack.timely
        exact Nat.lt_of_le_of_lt (Nat.le_trans hack' hforward) hbefore
      obtain ⟨ho₂, htold₂, -⟩ := hset hearly
      obtain ⟨ho₃, htold₃⟩ : s.Outstanding key c (some due) ∧ s.reportsTo c.requester.name = _ :=
        ho₂.run hundisturbed' hlater fun t ht => Option.some.inj ht ▸ hbefore
      have hnothing₃ : s.reportsTo c.requester.name = [] := htold₃.trans htold₂
      refine ⟨⟨ho₃.here, ho₃.reserves, toldTo_of_reportsTo hnothing₃⟩, fun event halone hontime =>
        ⟨fun hother => ho₃.before_due hontime hbefore hother, fun hfire => ?_⟩⟩
      subst hfire
      have hgaveUp : (s.step (.fire due)).GaveUp key c.requester
          (s.step (.fire due)).responseTimeout due := (ho₃.lapsed_fire hnothing₃ halone).gaveUp
      have htimeout₃ : (s.step (.fire due)).responseTimeout = config.exchangeLifetime :=
        (hs.trans (Counts.step s (.fire due))).responseTimeout
      rwa [htimeout₃] at hgaveUp
  · -- its number was given to no other request, and none that has it goes unanswered any more
    intro earlier event after s hover later
    have hgiven : c.number < submitted.nextNumber :=
      (hsubmitted.counted (counted_start config chances service resources)).conversations key c hopen
    have hs : Counts submitted s := Counts.run earlier submitted
    have hnot : ¬ (s.step event).Unanswered key c.number := by
      have hgiven' := Nat.lt_of_lt_of_le hgiven hs.nextNumber_le
      rcases hover with hsupersedes | ⟨response, hdelivers, htoken⟩
      · exact not_unanswered_of_supersedes hsupersedes hgiven'
      · have hanswered := not_unanswered_of_delivers hdelivers hgiven'
        rwa [htoken] at hanswered
    have hnext : Counts submitted (s.step event) := hs.trans (Counts.step s event)
    have hgiven' := Nat.lt_of_lt_of_le hgiven hnext.nextNumber_le
    have hlater : Counts (s.step event) later := Counts.run after (s.step event)
    have hnot' : ¬ later.Unanswered key c.number := hlater.not_unanswered hgiven' hnot
    have hgiven'' := Nat.lt_of_lt_of_le hgiven' hlater.nextNumber_le
    refine ⟨expire_of_answered hnot', fun now => ?_⟩
    intro s₁ left
    have hcounts : Counts later left := by
      have hresumed : Counts later s₁ := Counts.frame.resumed now later
        (.of_same rfl rfl rfl fun _ hd => hd) fun _ _ => trivial
      exact hresumed.trans (.dropDeadlines s₁ _)
    have hfire : fire now later = (left.expireAll (s₁.deadlines.filter fun d => d.due ≤ now)).settle :=
      fire_eq now later
    rw [hfire, expireAll_of_answered _ (Nat.lt_of_lt_of_le hgiven'' hcounts.nextNumber_le)
      (hcounts.not_unanswered hgiven'' hnot')]

/-- A request is acknowledged at once and given up after 247 seconds; a notification in time takes
its deadline away. -/
theorem given_up_after_247_seconds :
    let peer : Endpoint := ⟨1⟩
    let request : Message :=
      { type := .confirmable, code := .request .get, id := 0, token := ⟨[7], by decide⟩ }
    let notice : Message :=
      { type := .nonConfirmable, code := .response .content, id := 5, token := request.token,
        options := ⟨[⟨.observe, .unsigned 3⟩], by simp⟩ }
    let key : ConversationKey := ⟨peer, request.token⟩
    let chances : Chances :=
      ⟨.constant 1000, .constant (.ofNat 100), .constant 0, .constant 0⟩
    let reader : Requester := ⟨"reader", .full⟩
    let submitted := (start .standard chances (fun _ => { reaction := .hold }) []).step
      (.submit peer request reader)
    let ack : Event := .handle peer (.ok (.emptyAck 1000))
    let due := Duration.ofSeconds 247
    let waiting := (submitted.step ack).run [.pass (Duration.ofSeconds 200)]
    let answered := (submitted.step ack).step (.handle peer (.ok notice))
    (waiting.Reserves key ∧ waiting.toldTo "reader" = []) ∧
    (¬ (fire due waiting).Reserves key ∧
      (fire due waiting).toldTo "reader" = [(due, .failed (.noResponse due))]) ∧
    answered.Reserves key ∧ answered.expire key 0 = answered := by
  intro peer request notice key chances reader submitted ack due waiting answered
  have hnumber : (submitted.conversations.get? key).map (·.number) = some 0 := by decide +kernel
  obtain ⟨c, hopen, hc⟩ := Option.map_eq_some_iff.mp hnumber
  obtain ⟨hunanswered, hover⟩ := given_up_at_deadline .standard chances
    (fun _ => { reaction := .hold }) [] [] peer request request reader c (by simp) rfl hopen
  have hack : submitted.Defers key ack := by
    have htoken : (submitted.outgoing.openMessage? ⟨peer, 1000⟩).map (·.token) =
        some key.token := by decide +kernel
    obtain ⟨opened, hopened, htoken'⟩ := Option.map_eq_some_iff.mp htoken
    exact ⟨rfl, 1000, opened, rfl, hopened, htoken'⟩
  obtain ⟨-, -, hwaits⟩ := hunanswered [] ack (by simp) trivial hack
  have hpass : (submitted.step ack).Undisturbed key [.pass (Duration.ofSeconds 200)] := by
    have hforward : (submitted.step ack).now ≤ Duration.ofSeconds 200 := by decide +kernel
    have hontime : ∀ d ∈ (submitted.step ack).deadlines, (submitted.step ack).now < d.due →
        Duration.ofSeconds 200 < d.due := by decide +kernel
    refine ⟨⟨⟨id, fun _ _ h => ?_, fun _ h => absurd h List.not_mem_nil⟩, hforward, hontime⟩, trivial⟩
    rcases h.1 with h | h <;> cases h
  have hdue : Instant.tick (submitted.now + Config.standard.exchangeLifetime) = due := by
    decide +kernel
  have hbefore : waiting.now < Instant.tick (submitted.now + Config.standard.exchangeLifetime) := by
    decide +kernel
  obtain ⟨⟨-, hreserves, htold⟩, hnext⟩ := hwaits _ (by simp [Event.requester?]) hpass hbefore
  have hfire : waiting.LeavesAlone key (.fire due) := by
    have hnone : (waiting.conclusions (.fire due)).isEmpty = true := by decide +kernel
    refine ⟨id, fun _ _ h => ?_, fun x hx => ?_⟩
    · rcases h.1 with h | h <;> cases h
    · rw [List.isEmpty_iff.mp hnone] at hx
      exact absurd hx List.not_mem_nil
  have hontime : waiting.OnTime (.fire due) := by
    have hforward : waiting.now ≤ due := by decide +kernel
    have hfirst : ∀ d ∈ waiting.deadlines, waiting.now < d.due → due ≤ d.due := by decide +kernel
    exact ⟨hforward, hfirst⟩
  obtain ⟨-, hgaveUp⟩ := hnext (.fire due) hfire hontime
  obtain ⟨-, hreleased, htold'⟩ := hgaveUp (congrArg Event.fire hdue.symm)
  have hlast : (fire due waiting).toldTo "reader" =
      [(Instant.tick (submitted.now + Config.standard.exchangeLifetime),
        .failed (.noResponse Config.standard.exchangeLifetime))] := htold' [] (by simp)
  have hlifetime : Config.standard.exchangeLifetime = due := by decide +kernel
  rw [hdue, hlifetime] at hlast
  have hdelivers : (submitted.step ack).Delivers (.handle peer (.ok notice)) peer notice :=
    ⟨.inl rfl, by decide, by decide +kernel⟩
  obtain ⟨hsame, -⟩ := hover [ack] (.handle peer (.ok notice)) [] (.inr ⟨notice, hdelivers, rfl⟩)
  have hkept : answered.Reserves key := by
    unfold Reserves
    decide +kernel
  exact ⟨⟨hreserves, htold⟩, ⟨hreleased, hlast⟩, hkept, hc ▸ hsame⟩

end Coap.Engine
