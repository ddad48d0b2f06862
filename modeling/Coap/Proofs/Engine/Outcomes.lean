/-
# What becomes of a request

A request is submitted under a name that no other request uses.  Whatever happens to the node
before and afterwards, its requester is told of notifications, then of at most one thing that
is final, and of nothing after that, after the request was withdrawn, or after another request
took its token.
-/
import Coap.Proofs.Engine.Evolution

namespace Coap.Engine

variable {e e' : Engine} {r : Requester} {key : ConversationKey} {peer : Endpoint} {m : Message}
  {name : String}

/-! ## Submitting the request -/

/-- A requester that no conversation would reach is told nothing, whatever becomes of them. -/
theorem Deaf.evolves (hd : e.Deaf r.name) (h : Evolves r e e') :
    e'.reportsTo r.name = e.reportsTo r.name ∧ e'.Deaf r.name := by
  obtain ⟨told, htold, hdeaf, -⟩ := h
  obtain ⟨rfl, hd'⟩ := hdeaf hd
  exact ⟨by rw [htold, List.append_nil], hd'⟩

theorem Hears.of_quiet (h : Quiet e e') (hk : e.Hears r key) : e'.Hears r key := by
  refine ⟨?_, fun k c hc => ?_⟩
  · rw [h.conversations]
    exact hk.here
  · rw [h.conversations] at hc
    exact hk.only k c hc

/-- A requester that no other conversation would reach is reached by the one it opens. -/
theorem Deaf.hears_openConversation (hd : e.Deaf r.name) (key : ConversationKey) :
    (e.openConversation key r).Hears r key := by
  let opened : Conversation := { number := (e.dropConversation key).nextNumber, requester := r }
  have hlistens : opened.Listens r.name := ⟨rfl, fun hw => Bool.false_ne_true hw.2⟩
  refine ⟨⟨opened, ?_, rfl, hlistens⟩, fun k c hc hl => ?_⟩
  · rw [get?_openConversation, if_pos rfl]
  · rw [get?_openConversation] at hc
    split at hc
    · next hk => exact hk.symm
    · exact absurd hl (hd k c hc)

/-- Nobody is told of a conversation that opens in place of one that reaches nobody. -/
theorem Deaf.reportsTo_openConversation (hd : e.Deaf r.name) (key : ConversationKey) :
    (e.openConversation key r).reportsTo r.name = e.reportsTo r.name := by
  exact (hd.evolves (Evolves.dropConversation e key)).1

/-- Without its conversation a requester is no longer reached. -/
theorem Hears.deaf_of_erased (hk : e.Hears r key)
    (hconv : ∀ k, e'.conversations.get? k = if key = k then none else e.conversations.get? k) :
    e'.Deaf r.name := by
  intro k c hc hl
  rw [hconv] at hc
  split at hc
  · simp at hc
  · next hne => exact hne (hk.only k c hc hl).symm

/-- A requester is told that its request did not go out, which concludes the request. -/
theorem Deaf.unsent (hd : e.Deaf r.name) (peer : Endpoint) (failure : SendFailure) :
    ∃ last, (e.reportUnsent peer r failure).settle.reportsTo r.name =
        e.reportsTo r.name ++ [last] ∧
      r.Concluding last ∧ (e.reportUnsent peer r failure).settle.Deaf r.name := by
  have hd₀ : (e.reportUnsent peer r failure).Deaf r.name := hd
  obtain ⟨htold, hd'⟩ := hd₀.evolves (Evolves.frame.settle _)
  have hfinal : (Report.failed failure).IsFinal := trivial
  refine ⟨r.worded (.failed failure) (.error failure), ?_, r.concluding_worded hfinal _, hd'⟩
  rw [htold]
  unfold reportUnsent
  rw [reportsTo_note_reported, if_pos rfl]
  rfl

/-- A submitted request opens its conversation, or fails with one report. -/
theorem submit_cases (hd : e.Deaf r.name) (peer : Endpoint) (m : Message) :
    ∃ told, (e.submit peer m r).2.reportsTo r.name = e.reportsTo r.name ++ told ∧
      ((∃ sent, (e.withToken peer m).1 = .ok sent ∧
          (e.submit peer m r).2.Hears r ⟨peer, sent.token⟩ ∧ r.Interim told) ∨
        ((e.submit peer m r).2.Deaf r.name ∧ r.Story told)) := by
  obtain ⟨htold₀, hd₀⟩ := hd.evolves
    (withToken_of (fun _ _ => .of_same (fun _ => rfl) rfl) e peer m)
  unfold submit
  simp only
  generalize (e.withToken peer m).2 = e₀ at *
  split
  · next failure _ =>
    obtain ⟨last, htold, hlast, hd'⟩ := hd₀.unsent peer failure
    refine ⟨[last], by rw [htold, htold₀], .inr ⟨hd', ?_⟩⟩
    exact Requester.story_of_concluding (some last) (by simpa using hlast)
  · next sent hsent =>
    have hopen := hd₀.hears_openConversation ⟨peer, sent.token⟩
    have htold₁ := hd₀.reportsTo_openConversation ⟨peer, sent.token⟩
    have hquiet := Quiet.sendThrough (e₀.openConversation ⟨peer, sent.token⟩ r) peer sent none
    have htold₂ := (reportsTo_congr hquiet.reported r.name).trans (htold₁.trans htold₀)
    replace hopen := hopen.of_quiet hquiet
    generalize ((e₀.openConversation ⟨peer, sent.token⟩ r).sendThrough peer sent none).2 = e₁ at *
    split
    · have hsettled : Evolves r e₁ e₁.settle := Evolves.frame.settle e₁
      obtain ⟨told, htold, -, hhears⟩ := hsettled
      refine ⟨told, by rw [htold, htold₂], ?_⟩
      exact (hhears _ hopen).imp (fun h => ⟨sent, hsent, h⟩) id
    · next failure _ =>
      have hclosed := hopen.deaf_of_erased (get?_closeConversation e₁ _)
      obtain ⟨last, htold, hlast, hd'⟩ := hclosed.unsent peer failure
      refine ⟨[last], by rw [htold, ← htold₂]; rfl, .inr ⟨hd', ?_⟩⟩
      exact Requester.story_of_concluding (some last) (by simpa using hlast)

/-! ## Withdrawing it, and taking its token -/

/-- An event withdraws the request under a key, or submits another one that gets its token. -/
def Supersedes (e : Engine) (key : ConversationKey) : Event → Prop
  | .cancel k => k = key
  | .submit peer m _ =>
    ∃ sent, (e.withToken peer m).1 = .ok sent ∧ (⟨peer, sent.token⟩ : ConversationKey) = key
  | _ => False

/-- All that a requester is told when its request is given up: one that still waits learns
that there is no result. -/
def GivenUp (r : Requester) (e e' : Engine) : Prop :=
  e'.Deaf r.name ∧
    (e'.reportsTo r.name = e.reportsTo r.name ∨
      r.interest = .awaiting ∧
        e'.reportsTo r.name = e.reportsTo r.name ++ [.result (.error .shutDown)])

theorem GivenUp.evolves {e'' : Engine} (h : GivenUp r e e') (h' : Evolves r e' e'') :
    GivenUp r e e'' := by
  obtain ⟨hd, htold⟩ := h
  obtain ⟨htold', hd'⟩ := hd.evolves h'
  rw [← htold'] at htold
  exact ⟨hd', htold⟩

theorem Hears.dropConversation (hk : e.Hears r key) : GivenUp r e (e.dropConversation key) := by
  refine ⟨hk.deaf_of_erased (get?_dropConversation e key), ?_⟩
  obtain ⟨c, hc, rfl, hl⟩ := hk.here
  rw [reportsTo_dropConversation hc]
  by_cases hw : c.requester.interest = .awaiting
  · exact .inr ⟨hw, by rw [if_pos ⟨hl, hw⟩]⟩
  · exact .inl (by rw [if_neg fun h => hw h.2, List.append_nil])

/-- Another requester opens a conversation in place of the one that is followed. -/
theorem Hears.openConversation (hk : e.Hears r key) {other : Requester}
    (hother : other.name ≠ r.name) : GivenUp r e (e.openConversation key other) := by
  refine ⟨fun k c hc hl => ?_, hk.dropConversation.2⟩
  rw [get?_openConversation] at hc
  split at hc
  · exact hother (Option.some.inj hc ▸ hl).1
  · next hne => exact hne (hk.only k c hc hl).symm

theorem Hears.superseded (hk : e.Hears r key) {event : Event} (hs : e.Supersedes key event)
    (hother : event.requester? ≠ some r.name) : GivenUp r e (e.step event) := by
  cases event with
  | cancel k =>
    obtain rfl : k = key := hs
    have hwithdrawn : GivenUp r e (e.withdraw k) := hk.dropConversation
    exact hwithdrawn.evolves (Evolves.frame.settle _)
  | submit peer m other =>
    obtain ⟨sent, hsent, rfl⟩ := hs
    have hname : other.name ≠ r.name := fun hname => hother (congrArg some hname)
    obtain ⟨tokens, htokens⟩ := withToken_eq e peer m
    have hk₀ : (e.withToken peer m).2.Hears r ⟨peer, sent.token⟩ := by
      rw [htokens]
      exact ⟨hk.here, hk.only⟩
    have hopened : GivenUp r e
        ((e.withToken peer m).2.openConversation ⟨peer, sent.token⟩ other) := by
      have htold : (e.withToken peer m).2.reportsTo r.name = e.reportsTo r.name := by
        rw [htokens]
        rfl
      obtain ⟨hd, htold'⟩ := hk₀.openConversation hname
      rw [htold] at htold'
      exact ⟨hd, htold'⟩
    show GivenUp r e (e.submit peer m other).2
    unfold submit
    simp only [hsent]
    have hgone := hopened.evolves (.of_quiet (Quiet.sendThrough _ peer sent none))
    split
    · exact hgone.evolves (Evolves.frame.settle _)
    · exact ((hgone.evolves (Evolves.closeConversation _ _)).evolves
        (Evolves.reportUnsent _ peer hname _)).evolves (Evolves.frame.settle _)
  | _ => exact hs.elim

/-! ## From beginning to end -/

theorem deaf_start (c : Config) (chances : Chances) (service : Service)
    (resources : List (String × Resource)) (name : String) :
    (start c chances service resources).Deaf name := by
  intro k conversation hc
  simp [start] at hc

theorem reportsTo_start (c : Config) (chances : Chances) (service : Service)
    (resources : List (String × Resource)) (name : String) :
    (start c chances service resources).reportsTo name = [] := rfl

/-- **What a requester is told.**  A request is submitted under a name that no other request
uses, at any time.  In all that happens, with handlers that may behave in another way from any
event on, its requester is told of notifications and then of at most one thing that concludes the
request, and of nothing after that.  From the moment the request is withdrawn, or another request
gets its token, it is told nothing any more, except that a requester that waits for the result is
then told that there is none. -/
theorem told_of_request (c : Config) (chances : Chances) (service : Service)
    (resources : List (String × Resource)) (before after : List Event) (peer : Endpoint)
    (m : Message) (r : Requester)
    (hname : ∀ event ∈ before ++ after, event.requester? ≠ some r.name) :
    let e := (start c chances service resources).run before
    let submitted := e.step (.submit peer m r)
    r.Story ((submitted.run after).reportsTo r.name) ∧
    ∀ sent earlier event later, (e.withToken peer m).1 = .ok sent →
      after = earlier ++ event :: later →
      (submitted.run earlier).Supersedes ⟨peer, sent.token⟩ event →
      let told := (submitted.run earlier).reportsTo r.name
      (submitted.run after).reportsTo r.name = told ∨
        r.interest = .awaiting ∧
          ((submitted.run earlier).step event).reportsTo r.name =
            told ++ [.result (.error .shutDown)] ∧
          (submitted.run after).reportsTo r.name = told ++ [.result (.error .shutDown)] := by
  intro e submitted
  obtain ⟨hnothing, hd⟩ := (deaf_start c chances service resources r.name).evolves
    (Evolves.run before (fun event h => hname event (List.mem_append_left _ h)) _)
  have hafter : ∀ event ∈ after, event.requester? ≠ some r.name :=
    fun event h => hname event (List.mem_append_right _ h)
  obtain ⟨told₀, htold₀, hstate⟩ := submit_cases hd peer m
  have hall : submitted.reportsTo r.name = told₀ := by
    show (e.submit peer m r).2.reportsTo r.name = told₀
    rw [htold₀, hnothing, reportsTo_start, List.nil_append]
  constructor
  · rcases hstate with ⟨sent, -, hk, hinterim⟩ | ⟨hd', hstory⟩
    · obtain ⟨told, htold, -, hhears⟩ := Evolves.run after hafter submitted
      rw [htold, hall]
      rcases hhears _ hk with ⟨-, hinterim'⟩ | ⟨-, hstory⟩
      · exact (hinterim.append hinterim').story
      · exact hinterim.append_story hstory
    · rw [(hd'.evolves (Evolves.run after hafter submitted)).1]
      exact hall ▸ hstory
  · rintro sent earlier event later hsent rfl hs
    have hearlier := Evolves.run (r := r) earlier
      (fun event h => hafter event (List.mem_append_left _ h)) submitted
    have hevent := hafter event (List.mem_append_right _ List.mem_cons_self)
    have hlater := Evolves.run (r := r) later
      (fun event h => hafter event (List.mem_append_right _ (List.mem_cons_of_mem _ h)))
      ((submitted.run earlier).step event)
    -- at the event the conversation is still there, or nothing reaches the requester
    have hreached : (submitted.run earlier).Hears r ⟨peer, sent.token⟩ ∨
        (submitted.run earlier).Deaf r.name := by
      rcases hstate with ⟨sent', hsent', hk, -⟩ | ⟨hd', -⟩
      · obtain rfl := Except.ok.inj (hsent.symm.trans hsent')
        obtain ⟨told, -, -, hhears⟩ := hearlier
        exact (hhears _ hk).imp And.left And.left
      · exact .inr (Deaf.evolves hd' hearlier).2
    rw [run_append]
    rcases hreached with hk | hd'
    · have hgone := hk.superseded hs hevent
      have hend := hgone.evolves hlater
      rcases hend.2 with htold | ⟨hw, htold⟩
      · exact .inl htold
      · refine .inr ⟨hw, ?_, htold⟩
        rw [← htold]
        exact (hgone.1.evolves hlater).1.symm
    · exact .inl (hd'.evolves ((Evolves.step _ hevent).trans hlater)).1

/-- An observation is withdrawn after its first notification, and the second one goes
unheard. -/
theorem told_of_withdrawn_observation :
    let key : ConversationKey := ⟨⟨1⟩, ⟨[7], by decide⟩⟩
    let request : Message :=
      { type := .confirmable, code := .request .get, id := 0, token := key.token,
        options := ⟨[⟨.observe, .unsigned 0⟩], by simp⟩ }
    let notice (n : UInt32) : Message :=
      { type := .nonConfirmable, code := .response .content, id := n.toUInt16, token := key.token,
        options := ⟨[⟨.observe, .unsigned n⟩], by simp⟩ }
    let chances : Chances :=
      ⟨.constant 1000, .constant (.ofNat 100), .constant 0, .constant 0⟩
    let submitted := (start .standard chances (fun _ => { reaction := .hold }) []).step
      (.submit key.peer request ⟨"reader", .full⟩)
    let after : List Event := [.handle key.peer (.ok (notice 5)), .cancel key,
      .handle key.peer (.ok (notice 6))]
    (∀ event ∈ [] ++ after, event.requester? ≠ some "reader") ∧
    (submitted.run after).reportsTo "reader" = [.response (notice 5)] := by
  intro key request notice chances submitted after
  have hname : ∀ event ∈ [] ++ after, event.requester? ≠ some "reader" := by decide
  refine ⟨hname, ?_⟩
  obtain ⟨-, hgone⟩ := told_of_request .standard chances (fun _ => { reaction := .hold }) [] []
    after key.peer request ⟨"reader", .full⟩ hname
  have hfirst : (submitted.run [.handle key.peer (.ok (notice 5))]).reportsTo "reader" =
      [.response (notice 5)] := by
    decide +kernel
  rcases hgone request [.handle key.peer (.ok (notice 5))] (.cancel key)
    [.handle key.peer (.ok (notice 6))] rfl rfl rfl with htold | ⟨hw, -⟩
  · exact htold.trans hfirst
  · cases hw

end Coap.Engine
