/-
# Requests that wait for their answers

A request that is outstanding has its conversation open, its token in use and a deadline at most
once it was acknowledged.  This file says that it stays so as long as nothing happens under its
peer and token: what is delivered, concluded, withdrawn and given up under other tokens, and the
deadlines of earlier requests under its own, leave it alone.
-/
import Coap.Proofs.Engine.Outcomes
import Coap.Proofs.Engine.Requests
import Coap.Proofs.Engine.Unsent

namespace Coap.Engine

variable {e e' e'' : Engine} {key k : ConversationKey} {c : Conversation}
  {due? : Option Instant} {peer : Endpoint} {m : Message} {event : Event} {name : String}

/-! ## What makes a request outstanding -/

/-- A request waits for its answer, with a deadline or none. -/
structure Outstanding (e : Engine) (key : ConversationKey) (c : Conversation)
    (due? : Option Instant) : Prop where
  here : e.conversations.get? key = some c
  unanswered : c.latest? = none
  listens : c.Listens c.requester.name
  only : ∀ k c', e.conversations.get? k = some c' → c'.requester.name = c.requester.name → k = key
  reserves : e.Reserves key
  idle : key ∉ e.withdrawing
  due_iff : ∀ t, ⟨t, key, c.number⟩ ∈ e.deadlines ↔ due? = some t

/-- A request that is outstanding stays so, and its requester is told nothing. -/
def Endures (key : ConversationKey) (c : Conversation) (due? : Option Instant) (e e' : Engine) :
    Prop :=
  e.Outstanding key c due? → e'.Outstanding key c due? ∧
    e'.reportsTo c.requester.name = e.reportsTo c.requester.name

namespace Outstanding

/-- Only the conversations, the tokens, the withdrawals and the deadlines matter. -/
theorem congr (h : e.Outstanding key c due?) {left? : Option Instant}
    (hconv : e'.conversations = e.conversations) (htokens : e'.tokens = e.tokens)
    (hwithdrawing : e'.withdrawing = e.withdrawing)
    (hdue : ∀ t, ⟨t, key, c.number⟩ ∈ e'.deadlines ↔ left? = some t) :
    e'.Outstanding key c left? := by
  refine ⟨hconv ▸ h.here, h.unanswered, h.listens, hconv ▸ h.only, ?_, hwithdrawing ▸ h.idle, hdue⟩
  rw [Reserves, htokens]
  exact h.reserves

/-- A requester is not told of what happens to conversations under other keys. -/
theorem not_listens (h : e.Outstanding key c due?) (hk : k ≠ key) {c' : Conversation}
    (hc' : e.conversations.get? k = some c') : ¬ c'.Listens c.requester.name :=
  fun hl => hk (h.only k c' hc' hl.1)

/-- The conversation under another key changes without changing hands, or ends with its token. -/
theorem elsewhere (h : e.Outstanding key c due?) (hk : k ≠ key)
    (hconv : ∀ k', k' ≠ k → e'.conversations.get? k' = e.conversations.get? k')
    (hkept : ∀ c', e'.conversations.get? k = some c' → ∃ c₀,
      e.conversations.get? k = some c₀ ∧ c'.requester = c₀.requester)
    (htokens : e'.tokens = e.tokens ∨ e'.tokens = e.tokens.release k.peer k.token)
    (hwithdrawing : e'.withdrawing = e.withdrawing ∨ e'.withdrawing = e.withdrawing ++ [k])
    (hdeadlines : e'.deadlines = e.deadlines) : e'.Outstanding key c due? where
  here := (hconv key hk.symm).trans h.here
  unanswered := h.unanswered
  listens := h.listens
  only k' c' hc' hname := by
    by_cases hk' : k' = k
    · subst hk'
      obtain ⟨c₀, hc₀, hrequester⟩ := hkept c' hc'
      exact h.only k' c₀ hc₀ (hrequester ▸ hname)
    · rw [hconv k' hk'] at hc'
      exact h.only k' c' hc' hname
  reserves := by
    rcases htokens with hsame | hreleased
    · rw [Reserves, hsame]
      exact h.reserves
    · rw [Reserves, hreleased]
      refine TokenPool.mem_taken_release.mpr ⟨h.reserves, fun hparts => hk ?_⟩
      exact ConversationKey.mk.injEq .. ▸ hparts
  idle := by
    rcases hwithdrawing with hsame | hmore
    · rw [hsame]
      exact h.idle
    · rw [hmore, List.mem_append, List.mem_singleton]
      exact not_or.mpr ⟨h.idle, hk.symm⟩
  due_iff t := by
    rw [hdeadlines]
    exact h.due_iff t

end Outstanding

namespace Endures

/-- What endures two steps endures both. -/
theorem trans (h : Endures key c due? e e') (h' : Endures key c due? e' e'') :
    Endures key c due? e e'' := by
  intro ho
  obtain ⟨ho', htold⟩ := h ho
  obtain ⟨ho'', htold'⟩ := h' ho'
  exact ⟨ho'', htold'.trans htold⟩

/-- Whatever is quiet is endured. -/
theorem of_quiet (h : Quiet e e') : Endures key c due? e e' := by
  refine fun ho => ⟨ho.congr h.conversations h.tokens h.withdrawing ?_, reportsTo_congr h.reported _⟩
  rw [h.deadlines]
  exact ho.due_iff

/-! ### Under other keys -/

/-- Another conversation may be closed. -/
theorem closeConversation (e : Engine) (hk : k ≠ key) :
    Endures key c due? e (e.closeConversation k) := by
  refine fun ho => ⟨ho.elsewhere hk (fun k' hk' => ?_) (fun c' hc' => ?_) (.inr rfl) (.inl rfl) rfl,
    rfl⟩
  · rw [get?_closeConversation, if_neg hk'.symm]
  · rw [get?_closeConversation, if_pos rfl] at hc'
    cases hc'

/-- Another conversation may have something to report. -/
theorem report (hk : k ≠ key) {c' : Conversation} (hl : ¬ c'.Listens c.requester.name)
    (r : Report) (outcome : Except SendFailure Message) :
    Endures key c due? e (e.report k c' r outcome) := by
  obtain ⟨_, _, _, hframe⟩ := report_frame e k c' r outcome
  refine fun ho => ⟨ho.elsewhere hk (fun k' hk' => ?_) (fun d hd => ?_) (.inl ?_)
    (withdrawing_report e k c' r outcome) ?_, ?_⟩
  · rw [get?_report]
    simp [hk'.symm]
  · rw [get?_report] at hd
    obtain ⟨c₀, hc₀, rfl⟩ := Option.map_eq_some_iff.mp hd
    refine ⟨c₀, hc₀, ?_⟩
    split <;> rfl
  · rw [hframe]
  · rw [hframe]
  · rw [reportsTo_report, if_neg hl, List.append_nil]

/-- Another conversation may be closed with a report. -/
theorem close_report (hk : k ≠ key) {c' : Conversation} (hc' : e.conversations.get? k = some c')
    (r : Report) (outcome : Except SendFailure Message) :
    Endures key c due? e ((e.closeConversation k).report k c' r outcome) := by
  intro ho
  have hl : ¬ c'.Listens c.requester.name := ho.not_listens hk hc'
  exact (closeConversation e hk).trans (report hk hl r outcome) ho

/-- Another conversation may be dropped. -/
theorem dropConversation (e : Engine) (hk : k ≠ key) :
    Endures key c due? e (e.dropConversation k) := by
  obtain ⟨_, _, _, hframe⟩ := dropConversation_frame e k
  refine fun ho => ⟨ho.elsewhere hk (fun k' hk' => ?_) (fun c' hc' => ?_) (.inl ?_)
    (withdrawing_dropConversation e k) ?_, ?_⟩
  · rw [get?_dropConversation, if_neg hk'.symm]
  · rw [get?_dropConversation, if_pos rfl] at hc'
    cases hc'
  · rw [hframe]
  · rw [hframe]
  · cases hc' : e.conversations.get? k with
    | none => rw [dropConversation_of_none hc']
    | some c' =>
      rw [reportsTo_dropConversation hc', if_neg fun h => ho.not_listens hk hc' h.1,
        List.append_nil]

/-- Another conversation may be withdrawn. -/
theorem withdraw (e : Engine) (hk : k ≠ key) : Endures key c due? e (e.withdraw k) := by
  refine (dropConversation e hk).trans fun ho => ⟨?_, rfl⟩
  exact ho.elsewhere hk (fun _ _ => rfl) (fun c' hc' => ⟨c', hc', rfl⟩) (.inr rfl) (.inl rfl) rfl

/-- A response to another request is endured too. -/
theorem deliver (e : Engine) (hk : (⟨peer, m.token⟩ : ConversationKey) ≠ key) :
    Endures key c due? e (e.deliver peer m) := by
  cases hc' : e.conversations.get? ⟨peer, m.token⟩ with
  | none => exact of_quiet (Quiet.deliver_of_none hc')
  | some c' =>
    cases hnotice : m.notice? with
    | none =>
      rw [deliver_of_final hc' hnotice]
      exact close_report hk hc' _ _
    | some number =>
      by_cases htakes : c'.Takes e.now number
      · rw [deliver_of_takes hc' hnotice htakes]
        intro ho
        let c₁ : Conversation := { c' with latest? := some (number, e.now) }
        let e₁ : Engine := { e with conversations := e.conversations.insert ⟨peer, m.token⟩ c₁ }
        have hget (k' : ConversationKey) : e₁.conversations.get? k' = _ :=
          Table.get?_insert e.conversations ⟨peer, m.token⟩ k' c₁
        have hentered : e₁.Outstanding key c due? := by
          refine ho.elsewhere hk (fun k' hk' => ?_) (fun d hd => ?_) (.inl rfl) (.inl rfl) rfl
          · rw [hget, if_neg hk'.symm]
          · rw [hget, if_pos rfl] at hd
            exact ⟨c', hc', by rw [← Option.some.inj hd]⟩
        have hl := hentered.not_listens hk ((hget _).trans (if_pos rfl))
        exact report hk hl (.response m) (.ok m) hentered
      · rw [deliver_of_not_takes hc' hnotice htakes]
        exact of_quiet (.refl e)

/-- So is every step that may close other conversations only. -/
theorem frame : RequestFrame (Endures key c due?) (· ≠ key) where
  trans := trans
  quiet := of_quiet
  delivered e _ _ hk := deliver e hk
  failed _ hk hc' := close_report hk hc' _ _
  postponed {e k c'} due hk _ ho := by
    refine ⟨ho.congr rfl rfl rfl fun t => ?_, rfl⟩
    rw [← ho.due_iff t]
    simp [hk.symm]
  withdrawn e _ hk := withdraw e hk
  collected {e k rest} hpending ho := by
    have hk : k ≠ key := by
      rintro rfl
      exact ho.idle (hpending ▸ List.mem_cons_self)
    refine withdraw _ hk ⟨ho.here, ho.unanswered, ho.listens, ho.only, ho.reserves, ?_, ho.due_iff⟩
    exact fun hmem => ho.idle (hpending ▸ List.mem_cons_of_mem _ hmem)

/-! ### Deadlines of others -/

/-- An earlier request under the key may have a deadline that is not over. -/
theorem expire (e : Engine) {n : Nat} (hd : ¬ (k = key ∧ n = c.number)) :
    Endures key c due? e (e.expire k n) := by
  by_cases hk : k = key
  · intro ho
    have hn : ¬ (c.number = n ∧ c.latest?.isNone = true) := fun hn => hd ⟨hk, hn.1.symm⟩
    have hsame : e.expire k n = e := by
      subst hk
      simp only [Engine.expire, ho.here, if_neg hn]
    rw [hsame]
    exact ⟨ho, rfl⟩
  · exact frame.expire e n hk

/-- The deadlines of other requests may pass. -/
theorem expireAll (due : List Deadline) (hd : ∀ d ∈ due, ¬ (d.key = key ∧ d.number = c.number))
    (e : Engine) : Endures key c due? e (e.expireAll due) := by
  induction due generalizing e with
  | nil => exact frame.refl e
  | cons d rest ih =>
    exact (expire e (hd d List.mem_cons_self)).trans
      (ih (fun d hmem => hd d (List.mem_cons_of_mem _ hmem)) _)

/-- Before its own deadline only those of others are dealt with. -/
theorem expireDue {now : Instant} (hnow : ∀ t ∈ due?, now < t) (e : Engine) :
    Endures key c due? e (expireDue now e) := by
  intro ho
  refine expireAll _ (fun d hmem hd => ?_) _ (ho.congr rfl rfl rfl fun t => ?_)
  · obtain ⟨hmem, hdue⟩ := List.mem_filter.mp hmem
    obtain ⟨due, k, n⟩ := d
    obtain ⟨rfl, rfl⟩ := hd
    have hlate := hnow due ((ho.due_iff due).mp hmem)
    exact absurd (of_decide_eq_true hdue) (Nat.not_le.mpr hlate)
  · rw [← ho.due_iff t, List.mem_filter]
    refine ⟨And.left, fun hmem => ⟨hmem, ?_⟩⟩
    exact decide_eq_true (hnow t ((ho.due_iff t).mp hmem))

/-! ### Requests of others -/

/-- A token that is in use stays so when another request gets its own. -/
theorem withToken (e : Engine) (peer : Endpoint) (m : Message) :
    Endures key c due? e (e.withToken peer m).2 := by
  have hkept {bytes : Draws UInt8} {token : Token} (hreserves : e.Reserves key) :
      key.token ∈ ({ e.tokens with bytes }.reserve peer token).2.taken key.peer :=
    TokenPool.mem_taken_reserve.mpr (.inl hreserves)
  have htokened := e.tokened peer m
  intro ho
  generalize (e.withToken peer m).1 = result at htokened
  generalize (e.withToken peer m).2 = e₀ at htokened
  suffices hreserves : e₀.Reserves key by
    cases htokened <;> exact
      ⟨⟨ho.here, ho.unanswered, ho.listens, ho.only, hreserves, ho.idle, ho.due_iff⟩, rfl⟩
  cases htokened with
  | exhausted => exact ho.reserves
  | drawn | given | wasted => exact hkept ho.reserves

/-- Another requester may open a conversation. -/
theorem openConversation (e : Engine) (hk : k ≠ key) {r : Requester}
    (hr : r.name ≠ c.requester.name) : Endures key c due? e (e.openConversation k r) := by
  refine (dropConversation e hk).trans fun ho => ⟨?_, rfl⟩
  have hget (k' : ConversationKey) : (e.openConversation k r).conversations.get? k' = _ :=
    Table.get?_insert (e.dropConversation k).conversations k k' _
  refine ⟨?_, ho.unanswered, ho.listens, fun k' c' hc' hname => ?_, ho.reserves, ho.idle,
    ho.due_iff⟩
  · rw [hget, if_neg hk]
    exact ho.here
  · rw [hget] at hc'
    split at hc'
    · obtain rfl := Option.some.inj hc'
      exact absurd hname hr
    · exact ho.only k' c' hc' hname

/-- The request of another requester may fail. -/
theorem reportUnsent (e : Engine) (peer : Endpoint) {r : Requester}
    (hr : r.name ≠ c.requester.name) (failure : SendFailure) :
    Endures key c due? e (e.reportUnsent peer r failure) := by
  refine fun ho => ⟨ho.congr rfl rfl rfl ho.due_iff, ?_⟩
  unfold Engine.reportUnsent
  rw [reportsTo_note_reported, if_neg hr, List.append_nil]

end Endures

/-! ## Events that leave a request alone -/

/-- An event has nothing to do with the requests under a key: it neither withdraws nor replaces
them, delivers no response to them, and concludes none of their exchanges. -/
structure LeavesAlone (e : Engine) (key : ConversationKey) (event : Event) : Prop where
  not_supersedes : ¬ e.Supersedes key event
  not_delivers : ∀ peer m, e.Delivers event peer m → (⟨peer, m.token⟩ : ConversationKey) ≠ key
  not_concludes : ∀ x ∈ e.conclusions event, (⟨x.2.peer, x.2.token⟩ : ConversationKey) ≠ key

/-- The clock passes no deadline before that is dealt with, together with all that is due then. -/
def OnTime (e : Engine) (event : Event) : Prop :=
  event.Timely e ∧
    match event with
    | .fire now => ∀ d ∈ e.deadlines, e.now < d.due → now ≤ d.due
    | .pass now => ∀ d ∈ e.deadlines, e.now < d.due → now < d.due
    | .expire _ _ => False
    | _ => True

/-- Something holds of every event of a history and the node at that time. -/
def Throughout (e : Engine) (P : Engine → Event → Prop) : List Event → Prop
  | [] => True
  | event :: rest => P e event ∧ (e.step event).Throughout P rest

/-- What holds throughout two histories holds throughout both together. -/
theorem throughout_append {P : Engine → Event → Prop} {before after : List Event} :
    e.Throughout P (before ++ after) ↔
      e.Throughout P before ∧ (e.run before).Throughout P after := by
  induction before generalizing e with
  | nil => exact (and_iff_right trivial).symm
  | cons event rest ih => exact (and_congr_right fun _ => ih).trans and_assoc.symm

/-- A history leaves the requests under a key alone, and deals with all deadlines on time. -/
def Undisturbed (e : Engine) (key : ConversationKey) : List Event → Prop :=
  e.Throughout fun e event => e.LeavesAlone key event ∧ e.OnTime event

/-- **A request stays outstanding** as long as events leave it alone and its deadline is not over. -/
theorem Endures.step (halone : e.LeavesAlone key event)
    (hname : event.requester? ≠ some c.requester.name)
    (hexpire : ∀ k n, event ≠ .expire k n)
    (hfire : ∀ now, event = .fire now → ∀ t ∈ due?, now < t) :
    Endures key c due? e (e.step event) := by
  refine frame.step e event (fun peer m r hevent => ?_) (fun k hevent hk => ?_)
    halone.not_delivers halone.not_concludes (fun k n hevent => absurd hevent (hexpire k n))
    (fun _ _ ho => ⟨ho.congr rfl rfl rfl ho.due_iff, rfl⟩)
    fun now hevent => expireDue (hfire now hevent) _
  · subst hevent
    have hr : r.name ≠ c.requester.name := fun hr => hname (congrArg some hr)
    have hother {sent : Message} (hsent : (e.withToken peer m).1 = .ok sent) :
        (⟨peer, sent.token⟩ : ConversationKey) ≠ key :=
      fun hk => halone.not_supersedes ⟨sent, hsent, hk⟩
    exact frame.submit e peer m r (withToken e peer m)
      (fun _ s hsent => openConversation s (hother hsent) hr)
      (fun _ s hsent => closeConversation s (hother hsent)) fun s failure =>
        reportUnsent s peer hr failure
  · subst hevent
    exact halone.not_supersedes hk

/-- Time does not go back. -/
theorem now_le_run {events : List Event} (h : e.Undisturbed key events) :
    e.now ≤ (e.run events).now := by
  induction events generalizing e with
  | nil => exact Nat.le_refl _
  | cons event rest ih => exact Nat.le_trans (now_le_step h.1.2.1) (ih h.2)

/-- **A request stays outstanding up to its deadline** while a history leaves it alone. -/
theorem Outstanding.run {events : List Event} (ho : e.Outstanding key c due?)
    (hundisturbed : e.Undisturbed key events)
    (hname : ∀ event ∈ events, event.requester? ≠ some c.requester.name)
    (hbefore : ∀ t ∈ due?, (e.run events).now < t) :
    (e.run events).Outstanding key c due? ∧
      (e.run events).reportsTo c.requester.name = e.reportsTo c.requester.name := by
  induction events generalizing e with
  | nil => exact ⟨ho, rfl⟩
  | cons event rest ih =>
    obtain ⟨⟨halone, hontime⟩, hrest⟩ := hundisturbed
    have hexpire (k : ConversationKey) (n : Nat) : event ≠ .expire k n := by
      rintro rfl
      exact hontime.2
    have hlast : ∀ t ∈ due?, ((e.step event).run rest).now < t := hbefore
    have hfire (now : Instant) (hevent : event = .fire now) : ∀ t ∈ due?, now < t := by
      intro t ht
      have hlater : (e.step event).now ≤ ((e.step event).run rest).now := now_le_run hrest
      have hclock : (e.step event).now = now := by
        rw [hevent]
        exact now_fire now e
      rw [hclock] at hlater
      exact Nat.lt_of_le_of_lt hlater (hlast t ht)
    obtain ⟨ho', htold⟩ := Endures.step halone (hname event List.mem_cons_self) hexpire hfire ho
    obtain ⟨ho'', htold'⟩ := ih ho' hrest
      (fun event hmem => hname event (List.mem_cons_of_mem _ hmem)) hlast
    exact ⟨ho'', htold'.trans htold⟩

/-! ## Requests that are submitted -/

/-- Deadlines are kept when a conversation is withdrawn. -/
theorem deadlines_withdraw (e : Engine) (key : ConversationKey) :
    (e.withdraw key).deadlines = e.deadlines := by
  obtain ⟨_, _, _, hframe⟩ := dropConversation_frame e key
  unfold withdraw
  rw [hframe]

/-- Withdrawals that are carried out change no deadline. -/
theorem deadlines_settle (e : Engine) : e.settle.deadlines = e.deadlines := by
  suffices hcollected : ∀ n (e : Engine), (withdrawCollected n e).deadlines = e.deadlines from
    hcollected _ e
  intro n
  induction n with
  | zero => exact fun _ => rfl
  | succ n ih =>
    intro e
    unfold withdrawCollected
    split
    · rfl
    · next key rest _ =>
      exact (ih _).trans (deadlines_withdraw { e with withdrawing := rest } key)

/-- A request that is open went out, with its conversation as it was opened. -/
theorem submit_of_open {sent : Message} {r : Requester} (hsent : (e.withToken peer m).1 = .ok sent)
    (hopen : (e.submit peer m r).2.conversations.get? ⟨peer, sent.token⟩ = some c) :
    ∃ s, Quiet ((e.withToken peer m).2.openConversation ⟨peer, sent.token⟩ r) s ∧
      (e.submit peer m r).2 = s.settle := by
  have hquiet := Quiet.sendThrough
    ((e.withToken peer m).2.openConversation ⟨peer, sent.token⟩ r) peer sent none
  unfold submit at hopen ⊢
  simp only [hsent] at hopen ⊢
  split at hopen
  · exact ⟨_, hquiet, rfl⟩
  · next failure _ =>
    generalize ((e.withToken peer m).2.openConversation ⟨peer, sent.token⟩ r).sendThrough
      peer sent none = gone at hopen
    obtain ⟨c₀, hc₀, -⟩ := (Clerical.settle _).kept _ c hopen
    have hclosed : (gone.2.closeConversation ⟨peer, sent.token⟩).conversations.get?
        ⟨peer, sent.token⟩ = none := by
      rw [get?_closeConversation, if_pos rfl]
    exact absurd (hclosed.symm.trans hc₀) (by simp)

/-- Where nothing was heard of, no notification was. -/
theorem eq_nil_of_interim {r : Requester} {told : List Report} (hinterim : r.Interim told)
    (htold : e.reportsTo r.name = told) (hnone : e.responsesTo r.name = []) : told = [] := by
  refine List.eq_nil_iff_forall_not_mem.mpr fun report hreport => ?_
  obtain ⟨-, m, rfl, -⟩ := hinterim report hreport
  rw [← htold, ← map_toldTo] at hreport
  obtain ⟨x, hx, hresponse⟩ := List.mem_map.mp hreport
  have hheard : (x.1, m) ∈ e.responsesTo r.name :=
    List.mem_filterMap.mpr ⟨x, hx, by rw [hresponse]; rfl⟩
  rw [hnone] at hheard
  exact absurd hheard List.not_mem_nil

/-- **A request that is submitted is outstanding**, as long as its conversation is open. -/
theorem outstanding_submit {r : Requester} {sent : Message} (hcounted : e.Counted)
    (hcovered : e.Covered) (hfollows : e.Follows r none) (hdeaf : e.Deaf r.name)
    (hnothing : e.reportsTo r.name = []) (hsent : (e.withToken peer m).1 = .ok sent)
    (hopen : (e.submit peer m r).2.conversations.get? ⟨peer, sent.token⟩ = some c) :
    (e.submit peer m r).2.Outstanding ⟨peer, sent.token⟩ c none ∧ c.requester = r ∧
      (e.submit peer m r).2.reportsTo r.name = [] := by
  let key : ConversationKey := ⟨peer, sent.token⟩
  obtain ⟨tokens, hwith⟩ := withToken_eq e peer m
  obtain ⟨s, hquiet, hsettled⟩ := submit_of_open hsent hopen
  rw [hwith] at hquiet
  let opened : Engine := ({ e with tokens } : Engine).openConversation key r
  have hget : opened.conversations.get? key = _ := get?_openConversation { e with tokens } key r key
  rw [if_pos rfl] at hget
  -- its requester has heard of nothing
  have htold : e.toldTo r.name = [] := List.map_eq_nil_iff.mp ((map_toldTo e r.name).trans hnothing)
  have hnone : e.responsesTo r.name = [] := by
    rw [responsesTo, htold]
    rfl
  have hheard : (e.step (.submit peer m r)).responsesTo r.name = [] := by
    refine (responsesTo_step fun _ _ _ hdelivers => ?_).trans hnone
    rcases hdelivers.1 with h | h <;> cases h
  have hrequester : c.requester = r := by
    have hmute : Mute opened (e.submit peer m r).2 := by
      rw [hsettled]
      exact (Mute.of_quiet hquiet).trans (Clerical.settle s).toMute
    obtain ⟨c₀, hc₀, hsame⟩ := hmute.kept key c hopen
    rw [hget] at hc₀
    rw [hsame, ← Option.some.inj hc₀]
  have hfollows' : (e.submit peer m r).2.Follows r (some key) := hfollows.submit_own hnone hsent
  obtain ⟨-, -, htracks⟩ := hfollows' key c hopen (by rw [hrequester])
  replace htracks : c.Tracks [] := hheard ▸ htracks
  have hunanswered : c.latest? = none := htracks.latest_eq_none_iff.mpr rfl
  have hlistens : c.Listens c.requester.name := htracks.listens_iff.mpr fun _ => rfl
  -- the number is a new one, so there is no deadline with it
  have hnumber : e.nextNumber ≤ c.number := by
    have hcounts : Counts opened (e.submit peer m r).2 := by
      rw [hsettled]
      exact (Counts.of_quiet hquiet).trans (Counts.frame.settle s)
    have hopened := Counts.openConversation { e with tokens } key r
    rcases hcounts.unanswered ⟨c, hopen, rfl, hunanswered⟩ with ⟨c₀, hc₀, hsame, -⟩ | hlater
    · have hnext : c₀.number = e.nextNumber :=
        number_openConversation (e := { e with tokens }) hc₀
      exact Nat.le_of_eq (hnext.symm.trans hsame)
    · exact Nat.le_trans hopened.nextNumber_le hlater
  have hdeadlines : (e.submit peer m r).2.deadlines = e.deadlines := by
    obtain ⟨_, _, _, hframe⟩ := dropConversation_frame { e with tokens } key
    rw [hsettled, deadlines_settle, hquiet.deadlines]
    unfold openConversation
    rw [hframe]
  refine ⟨⟨hopen, hunanswered, hlistens, fun k c' hc' hname => ?_, ?_, ?_, fun t => ?_⟩,
    hrequester, ?_⟩
  · rw [hrequester] at hname
    exact (Option.some.inj (hfollows' k c' hc' hname).1).symm
  · exact (hcovered.submit peer m r).reserves key (Option.isSome_of_eq_some hopen)
  · rw [hsettled, withdrawing_settle]
    exact List.not_mem_nil
  · refine ⟨fun hmem => ?_, fun h => absurd h.symm (Option.some_ne_none t)⟩
    rw [hdeadlines] at hmem
    exact absurd (hcounted.deadlines _ hmem) (Nat.not_lt.mpr hnumber)
  · obtain ⟨told, htold', hstate⟩ := submit_cases hdeaf peer m
    rw [hnothing, List.nil_append] at htold'
    rcases hstate with ⟨-, -, -, hinterim⟩ | ⟨hdeaf', -⟩
    · rw [htold']
      exact eq_nil_of_interim hinterim htold' hheard
    · rw [hrequester] at hlistens
      exact absurd hlistens (hdeaf' key c hopen)

end Coap.Engine
