/-
# The subscription that a failure ends

A peer rejects a message by its ID, and an exchange fails under the ID of its message.  Both end
at most the subscription that remembers the ID, and that is the ID of its latest notification
(`failure_ends_latest`).  As long as the ID is reserved for the notification, no other message can
be meant.  But the subscription remembers it for longer: when the reservation is over the ID may
be given to another message, and the failure of that one ends the subscription as well
(`ended_by_another_message`).
-/
import Coap.Proofs.Engine.Charges
import Coap.Proofs.Engine.Latest

namespace Coap

namespace Subscriptions

variable {s : Subscriptions} {peer : Endpoint} {m : Message} {key : ConversationKey}

/-- What is no request changes no subscription but one of its peer that remembers its ID. -/
theorem of_get?_receive_ne (hrequest : ¬ m.isRequest = true)
    (h : (s.receive peer m).2.entries.get? key ≠ s.entries.get? key) :
    key.peer = peer ∧ s.lastId? key = some m.id := by
  unfold receive at h
  split at h
  · split at h
    · next found hfound =>
      have hkey : found = key := by
        refine Classical.byContradiction fun hne => h ?_
        rw [get?_remove_eq, if_neg hne]
      subst hkey
      obtain ⟨⟨found, x⟩, hfind, rfl⟩ := Option.map_eq_some_iff.1 hfound
      have hx := Table.mem_entries_iff.1 (List.mem_of_find?_eq_some hfind)
      have hnamed := List.find?_some hfind
      simp only [Bool.and_eq_true, beq_iff_eq] at hnamed
      exact ⟨hnamed.1, by rw [lastId?, hx]; exact hnamed.2⟩
    · exact absurd rfl h
  · split at h
    · next hasks =>
      refine absurd ?_ hrequest
      simp only [asksToObserve, Bool.and_eq_true, beq_iff_eq] at hasks
      exact Option.isSome_of_eq_some hasks.1
    · exact absurd rfl h

end Subscriptions

namespace Engine

variable {e : Engine} {peer : Endpoint} {m : Message} {key : ConversationKey}
  {event : Event} {outcome : ExchangeEvent}

/-! ## Rejections -/

/-- A request must not be sent as a reset. -/
theorem not_admits_of_reset (hreset : m.type = .reset) (hrequest : m.isRequest = true) :
    ¬ e.Admits peer m := by
  rintro ⟨hout, -⟩
  simp [Outgoing.receive, hreset, hrequest] at hout

/-- Of a reset only the layer of subscriptions may take notice, as of its subscriptions. -/
theorem subscriptions_absorb (e : Engine) (peer : Endpoint) (hreset : m.type = .reset) :
    (e.absorb peer m).subscriptions = e.subscriptions ∨
      ¬ m.isRequest = true ∧
        (e.absorb peer m).subscriptions = (e.subscriptions.receive peer m).2 := by
  have hheard : (e.heard peer m).subscriptions = e.subscriptions := by
    obtain ⟨_, _, _, hframe⟩ := heard_frame e peer m
    rw [hframe]
  rw [absorb_eq_heard]
  split
  · next hadmits =>
    have hrequest : ¬ m.isRequest = true := fun hrequest =>
      not_admits_of_reset hreset hrequest hadmits
    refine .inr ⟨hrequest, ?_⟩
    have htransfers (s : Transfers) (now : Instant) : s.receive now peer m = (.forward m, s) := by
      simp [Transfers.receive, hrequest]
    unfold receiveInBlocks receiveObserved
    simp only [htransfers]
    rw [hheard]
    rcases e.subscriptions.lets_receive peer m with hlets | hlets
    · simp only [hlets]
      rw [accept_eq, if_neg hrequest]
      split
      · exact subscriptions_deliver _ _ _
      · rfl
    · simp only [hlets]
  · exact .inl hheard

/-- A reset that is dealt with changes no subscription but one of its peer that remembers its
ID. -/
theorem of_absorb_ne (hreset : m.type = .reset)
    (h : (e.absorb peer m).subscriptions.entries.get? key ≠ e.subscriptions.entries.get? key) :
    key.peer = peer ∧ e.subscriptions.lastId? key = some m.id := by
  rcases subscriptions_absorb e peer hreset with hsame | ⟨hrequest, hlayer⟩
  · rw [hsame] at h
    exact absurd rfl h
  · rw [hlayer] at h
    exact Subscriptions.of_get?_receive_ne hrequest h

/-- The outcome of an exchange that a reset ends has its peer and ID. -/
theorem named_of_received (h : outcome ∈ (e.outgoing.receive peer m).2.1.toList) :
    outcome.peer = peer ∧ outcome.id = m.id := by
  have hcases := Outgoing.receive_cases e.outgoing peer m
  generalize (e.outgoing.receive peer m).2.1 = event? at hcases h
  generalize (e.outgoing.receive peer m).2.2 = s at hcases
  cases hcases with
  | ignored => cases h
  | closed =>
    obtain rfl := List.mem_singleton.1 h
    exact ⟨rfl, rfl⟩

/-- An outcome that is concluded changes no subscription but the one under its peer and token, if
it is a failure and the subscription remembers its ID. -/
theorem of_conclude_ne
    (h : (e.conclude outcome).subscriptions.entries.get? key ≠ e.subscriptions.entries.get? key) :
    key = ⟨outcome.peer, outcome.token⟩ ∧ outcome.outcome.failure?.isSome = true ∧
      e.subscriptions.lastId? key = some outcome.id := by
  rw [conclude_subscriptions] at h
  obtain ⟨hkey, hfailed, hid⟩ := Subscriptions.of_get?_settle_ne h
  exact ⟨hkey.symm, hfailed, hid⟩

theorem of_concludeAll_ne (outcomes : List ExchangeEvent) :
    ∀ {e : Engine}, (e.concludeAll outcomes).subscriptions.entries.get? key ≠
      e.subscriptions.entries.get? key →
    ∃ outcome ∈ outcomes, key.peer = outcome.peer ∧
      e.subscriptions.lastId? key = some outcome.id := by
  induction outcomes with
  | nil => exact fun h => absurd rfl h
  | cons outcome rest ih =>
    intro e h
    by_cases hfirst : (e.conclude outcome).subscriptions.entries.get? key =
        e.subscriptions.entries.get? key
    · rw [← hfirst] at h
      obtain ⟨later, hlater, hpeer, hid⟩ := ih h
      exact ⟨later, List.mem_cons_of_mem _ hlater, hpeer,
        RecordsNone.frame.conclude e outcome key later.id hid⟩
    · obtain ⟨hkey, -, hid⟩ := of_conclude_ne hfirst
      exact ⟨outcome, List.mem_cons_self, hkey ▸ rfl, hid⟩

/-- **A reset changes no subscription but one of its peer that remembers its ID.** -/
theorem of_reset_ne (hbrings : event.Brings peer m) (hreset : m.type = .reset)
    (h : (e.step event).subscriptions.entries.get? key ≠ e.subscriptions.entries.get? key) :
    key.peer = peer ∧ e.subscriptions.lastId? key = some m.id := by
  rcases hbrings with rfl | rfl
  · by_cases habsorbed : (e.absorb peer m).subscriptions.entries.get? key =
        e.subscriptions.entries.get? key
    · -- what the layers left alone is ended by the outcome of the exchange
      have hconcluded : (((e.absorb peer m).concludeAll
          (e.outgoing.receive peer m).2.1.toList)).subscriptions.entries.get? key ≠
            (e.absorb peer m).subscriptions.entries.get? key := by
        rw [habsorbed, ← subscriptions_settle]
        exact h
      obtain ⟨outcome, houtcome, hpeer, hid⟩ := of_concludeAll_ne _ hconcluded
      obtain ⟨hpeer', hid'⟩ := named_of_received houtcome
      have hrecords : RecordsNone e (e.absorb peer m) :=
        RecordsNone.frame.absorb e fun _ => trivial
      exact ⟨hpeer.trans hpeer', hid' ▸ hrecords key outcome.id hid⟩
    · exact of_absorb_ne hreset habsorbed
  · exact of_absorb_ne hreset h

/-! ## Outcomes that are concluded -/

/-- Outcomes that are concluded in order, each with the node that is about to do so. -/
def conclusionsOf (e : Engine) : List ExchangeEvent → List (Engine × ExchangeEvent)
  | [] => []
  | outcome :: rest => (e, outcome) :: (e.conclude outcome).conclusionsOf rest

/-- The outcomes that are concluded in an event. -/
def conclusions (e : Engine) : Event → List (Engine × ExchangeEvent)
  | .handle peer (.ok m) =>
    (e.absorb peer m).conclusionsOf (e.outgoing.receive peer m).2.1.toList
  | .conclude outcome => [(e, outcome)]
  | .fire now =>
    (repeatDue now { e with now }).conclusionsOf (e.outgoing.fire e.outboxOpen now).1.events
  | _ => []

theorem recordsNone_of_mem_conclusionsOf (outcomes : List ExchangeEvent) :
    ∀ {e : Engine}, ∀ x ∈ e.conclusionsOf outcomes, RecordsNone e x.1 := by
  induction outcomes with
  | nil => exact fun _ hx => by cases hx
  | cons outcome rest ih =>
    intro e x hx
    rcases List.mem_cons.1 hx with rfl | hx
    · exact .refl _
    · exact (RecordsNone.frame.conclude e outcome).trans (ih x hx)

/-- No ID has been recorded in an event when an outcome is about to be concluded. -/
theorem recordsNone_of_mem_conclusions :
    ∀ x ∈ e.conclusions event, RecordsNone e x.1 := by
  cases event with
  | handle peer decoded =>
    cases decoded with
    | error fault => exact fun _ hx => by cases hx
    | ok m =>
      intro x hx
      exact (RecordsNone.frame.absorb e fun _ => trivial).trans
        (recordsNone_of_mem_conclusionsOf _ x hx)
  | conclude outcome =>
    intro x hx
    rw [List.mem_singleton.1 hx]
    exact .refl _
  | fire now =>
    intro x hx
    exact (RecordsNone.frame.repeatDue now { e with now }).trans
      (recordsNone_of_mem_conclusionsOf _ x hx)
  | _ => exact fun _ hx => by cases hx

/-! ## Nodes that were started -/

/-- **Failures end the subscription they are meant for**, as long as IDs are reserved.  Take any
history of a node that was started.

* A reset that comes in, and whatever that brings about, changes no subscription except one of its
  peer, and that only if it names the ID of the latest notification that went out for it.  If that
  notification has an ID of its own, then the latest confirmable or non-confirmable message for
  the peer under the ID is the notification, or it was sent when the ID was not reserved for the
  notification any more.
* An outcome of an exchange, whenever it is concluded, changes no subscription except the one
  under its peer and token, and that only if it is a failure under the ID of the latest
  notification that went out for it.
* If an exchange with the peer and under the ID of a notification has an outcome, then it was the
  notification that opened it, or its ID is not reserved for it any more.

A notification that is confirmable always has an ID of its own, and one that is not confirmable
has it if no exchange was open under it when it went out. -/
theorem failure_ends_latest (c : Config) (chances : Chances) (service : Service)
    (resources : List (String × Resource)) (turns : List Turn)
    (htimely : (start c chances service resources).Timely turns) :
    let now := (start c chances service resources).play turns
    let gone := (start c chances service resources).gather notices turns
    (∀ turn peer m key, turn.event.Brings peer m → m.type = .reset →
      (now.after turn).subscriptions.entries.get? key ≠ now.subscriptions.entries.get? key →
      key.peer = peer ∧ ∃ n, latestFor? key gone = some n ∧ n.message.id = m.id ∧
        (n.HasOwnId → ∃ t latest, now.latestUnder? ⟨peer, m.id⟩ = some (t, latest) ∧
          (latest = n.message ∨ n.time + c.exchangeLifetime ≤ t))) ∧
    (∀ turn : Turn, ∀ x ∈ (now.under turn.service).conclusions turn.event, ∀ key,
      (x.1.conclude x.2).subscriptions.entries.get? key ≠ x.1.subscriptions.entries.get? key →
      key = ⟨x.2.peer, x.2.token⟩ ∧ x.2.outcome.failure?.isSome = true ∧
        ∃ n, latestFor? key gone = some n ∧ n.message.id = x.2.id) ∧
    (∀ n ∈ gone, n.HasOwnId → ∀ turn : Turn,
      ∀ outcome ∈ (now.under turn.service).published turn.event,
      outcome.peer = n.key.peer → outcome.id = n.message.id →
      ∃ opened, now.outgoing.openMessage? ⟨outcome.peer, outcome.id⟩ = some opened ∧
        opened.token = outcome.token ∧
        (opened = n.message ∨ n.time + c.exchangeLifetime ≤ now.now)) ∧
    ∀ n ∈ gone, n.message.isNumbered = true →
      (n.message.type = .confirmable ∨
        n.node.outgoing.openMessage? ⟨n.key.peer, n.message.id⟩ = none) → n.HasOwnId := by
  intro now gone
  have hremembers : now.Remembers gone := id_of_lastId? c chances service resources turns
  have hlasting : ∀ n ∈ gone, n.Lasting c.exchangeLifetime now :=
    lasting_play (orderly_start c chances service resources) htimely
  refine ⟨?_, ?_, ?_, ?_⟩
  · intro turn peer m key hbrings hreset hchanged
    obtain ⟨hpeer, hid⟩ := of_reset_ne (e := now.under turn.service) hbrings hreset hchanged
    obtain ⟨n, hlatest, hnamed⟩ := hremembers key m.id hid
    refine ⟨hpeer, n, hlatest, hnamed, fun hown => ?_⟩
    obtain ⟨hmem, hkey⟩ := List.mem_filter.1 (List.mem_of_getLast? hlatest)
    obtain rfl : n.key = key := by simpa using hkey
    rw [← hpeer, ← hnamed]
    exact (hlasting n hmem).latestUnder hown
  · intro turn x hx key hchanged
    obtain ⟨hkey, hfailed, hid⟩ := of_conclude_ne hchanged
    have hrecords : RecordsNone (now.under turn.service) x.1 := recordsNone_of_mem_conclusions x hx
    exact ⟨hkey, hfailed, hremembers key x.2.id (hrecords key x.2.id hid)⟩
  · intro n hn hown turn outcome hpublished hpeer hid
    obtain ⟨opened, hopened, htoken⟩ := open_of_published hpublished
    refine ⟨opened, hopened, htoken, ?_⟩
    rw [hpeer, hid] at hopened
    rcases Nat.lt_or_ge now.now (n.time + c.exchangeLifetime) with hreserved | hover
    · exact .inl (((hlasting n hn).guarded hown).alone hreserved opened hopened)
    · exact .inr hover
  · rintro n hn hnumbered (hconfirmable | hnone)
    · exact (hlasting n hn).owned hconfirmable
    · refine ⟨hnumbered, fun m hm => ?_⟩
      rw [hnone] at hm
      cases hm

/-- A confirmable notification goes out and is rejected.  It was the latest message under its ID,
and its subscription is ended. -/
theorem failure_ends_notified :
    let peer : Endpoint := ⟨1⟩
    let observe : Message :=
      { type := .confirmable, code := .request .get, id := 10, token := ⟨[2], by decide⟩,
        options := ⟨[⟨.observe, .unsigned 0⟩, ⟨.uriPath, .text "temp"⟩], by decide⟩ }
    let key : ConversationKey := ⟨peer, observe.token⟩
    let chances : Chances :=
      ⟨.constant 1000, .constant (.ofNat 100), .constant 0, .constant 0⟩
    let service : Service := fun _ => { reaction := .render 0 }
    let resources : List (String × Resource) :=
      [("temp", { confirmable := true, state := fun _ => .ok { payload := [0x31] } })]
    let turns : List Turn :=
      [⟨service, .handle peer (.ok observe)⟩, ⟨service, .announce 0 (.changed none)⟩]
    let rejection : Turn := ⟨service, .handle peer (.ok (.resetOf 1000))⟩
    let started := start .standard chances service resources
    let now := started.play turns
    started.Timely turns ∧
    (now.subscriptions.entries.get? key).isSome = true ∧
    (now.after rejection).subscriptions.entries.get? key = none ∧
    ∃ n, latestFor? key (started.gather notices turns) = some n ∧
      now.latestUnder? ⟨peer, 1000⟩ = some (0, n.message) := by
  intro peer observe key chances service resources turns rejection started now
  have htimely : started.Timely turns := ⟨trivial, trivial, trivial⟩
  have hthere : (now.subscriptions.entries.get? key).isSome = true := by decide +kernel
  have hended : ((now.after rejection).subscriptions.entries.get? key).isNone = true := by
    decide +kernel
  have hgone := Option.isNone_iff_eq_none.1 hended
  have hchanged : (now.after rejection).subscriptions.entries.get? key ≠
      now.subscriptions.entries.get? key := by
    intro hsame
    rw [← hsame, hgone] at hthere
    cases hthere
  obtain ⟨hresets, -, -, howned⟩ :=
    failure_ends_latest .standard chances service resources turns htimely
  simp only [now, started] at hchanged
  obtain ⟨-, n, hlatest, -, hunder⟩ :=
    hresets rejection peer (.resetOf 1000) key (.inl rfl) rfl hchanged
  -- the one notification is confirmable
  have htypes : (started.gather notices turns).map (·.message.type) = [.confirmable] := by
    decide +kernel
  obtain ⟨n', hnotices, htype⟩ := List.map_eq_singleton_iff.1 htypes
  have hmem := (List.mem_filter.1 (List.mem_of_getLast? hlatest)).1
  obtain rfl : n = n' := by rwa [hnotices, List.mem_singleton] at hmem
  have hown := howned n hmem (decide_eq_true (.inl htype)) (.inl htype)
  obtain ⟨t, latest, hlast, hsame⟩ := hunder hown
  have htime : (now.latestUnder? ⟨peer, 1000⟩).map (·.1) = some 0 := by decide +kernel
  have hlast : now.latestUnder? ⟨peer, 1000⟩ = some (t, latest) := hlast
  rw [hlast] at htime
  obtain rfl : t = 0 := Option.some.inj htime
  refine ⟨htimely, hthere, hgone, n, hlatest, ?_⟩
  rw [hlast, hsame.resolve_right fun hlate => ?_]
  have hlong : 0 < Config.standard.exchangeLifetime := by decide +kernel
  exact absurd (Nat.le_trans (Nat.le_add_left _ _) hlate) (Nat.not_le_of_lt hlong)

/-- **Ended by the failure of another message.**  A peer observes a resource, and is notified of a
change without being asked to acknowledge it.  Much later, when the ID of that notification is not
reserved any more, a request of this node under the same token gets the ID.  The peer rejects the
request, and its subscription is ended. -/
theorem ended_by_another_message :
    let peer : Endpoint := ⟨1⟩
    let observe : Message :=
      { type := .confirmable, code := .request .get, id := 10, token := ⟨[2], by decide⟩,
        options := ⟨[⟨.observe, .unsigned 0⟩, ⟨.uriPath, .text "temp"⟩], by decide⟩ }
    let request : Message :=
      { type := .confirmable, code := .request .get, id := 0, token := observe.token }
    let key : ConversationKey := ⟨peer, observe.token⟩
    let chances : Chances :=
      ⟨.constant 1000, .constant (.ofNat 100), .constant 0, .constant 0⟩
    let service : Service := fun _ => { reaction := .render 0 }
    let resources : List (String × Resource) :=
      [("temp", { confirmable := false, state := fun _ => .ok { payload := [0x31] } })]
    let turns : List Turn :=
      [⟨service, .handle peer (.ok observe)⟩, ⟨service, .announce 0 (.changed none)⟩,
        ⟨service, .fire (Duration.ofSeconds 250)⟩,
        ⟨service, .submit peer request ⟨"reader", .plain⟩⟩]
    let rejection : Turn := ⟨service, .handle peer (.ok (.resetOf 1000))⟩
    let started := start .standard chances service resources
    let now := started.play turns
    started.Timely turns ∧
    (started.gather notices turns).map (fun n => (n.key, n.message.id, n.message.code)) =
      [(key, 1000, .response .content)] ∧
    now.latestUnder? ⟨peer, 1000⟩ =
      some (Duration.ofSeconds 250, { request with id := 1000 }) ∧
    (now.subscriptions.entries.get? key).isSome = true ∧
    (now.after rejection).subscriptions.entries.get? key = none := by
  intro peer observe request key chances service resources turns rejection started now
  have hended : ((now.after rejection).subscriptions.entries.get? key).isNone = true := by
    decide +kernel
  have hlater : (started.play (turns.take 2)).now ≤ Duration.ofSeconds 250 := by decide +kernel
  exact ⟨⟨trivial, trivial, hlater, trivial, trivial⟩, by decide +kernel, by decide +kernel,
    by decide +kernel, Option.isNone_iff_eq_none.1 hended⟩

end Engine

end Coap
