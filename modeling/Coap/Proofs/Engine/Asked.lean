/-
# Confirmable requests that are let in

A peer may use a message ID again when the request that had it before is forgotten.  Until then
whatever comes under the ID counts as a duplicate, so of two confirmable requests with the same
ID that are let in the later one comes at least a lifetime after the other (`apart_play`), and
every response that leaves belongs to one of those that were let in (`asked_of_answered`).
-/
import Coap.Proofs.Engine.Responding

namespace Coap.Engine

variable {e e' e'' : Engine} {peer : Endpoint} {m : Message} {event : Event} {turn : Turn}
  {turns : List Turn} {lifetime : Duration}

/-- A confirmable request that was let in, and when. -/
structure Asking where
  peer : Endpoint
  request : Message
  time : Instant

/-- The key of a request: its peer and its ID. -/
def Asking.key (x : Asking) : MessageKey := ⟨x.peer, x.request.id⟩

/-- Whether a message asks can be read off it. -/
instance (m : Message) : Decidable (Incoming.Asks m) := inferInstanceAs (Decidable (_ ∧ _))

/-- The confirmable request that the layer of acknowledgements lets in at an event, if any. -/
def askings (e : Engine) : Event → List Asking
  | .handle peer (.ok m) | .absorb peer m =>
    [⟨peer, m, e.now⟩].filter fun x =>
      Incoming.Asks x.request ∧ e.incoming.forwards e.now (.receive x.peer x.request)
  | _ => []

/-- The latest of some requests that has a key. -/
def latestAsked? (key : MessageKey) (asked : List Asking) : Option Asking :=
  (asked.filter fun x => x.key = key).getLast?

/-- A request is asked when it is brought for the first time and is confirmable. -/
theorem mem_askings {x : Asking} : x ∈ e.askings event ↔ event.Brings x.peer x.request ∧
    Incoming.Asks x.request ∧ e.incoming.forwards e.now (.receive x.peer x.request) = true ∧
    x.time = e.now := by
  have hbrought (peer : Endpoint) (m : Message) : x ∈ e.askings (.absorb peer m) ↔
      (peer = x.peer ∧ m = x.request) ∧ Incoming.Asks x.request ∧
        e.incoming.forwards e.now (.receive x.peer x.request) = true ∧ x.time = e.now := by
    obtain ⟨p, request, time⟩ := x
    refine List.mem_filter.trans ?_
    rw [List.mem_singleton, Asking.mk.injEq, decide_eq_true_eq]
    constructor
    · rintro ⟨⟨rfl, rfl, rfl⟩, hasks, hforwards⟩
      exact ⟨⟨rfl, rfl⟩, hasks, hforwards, rfl⟩
    · rintro ⟨⟨rfl, rfl⟩, hasks, hforwards, rfl⟩
      exact ⟨⟨rfl, rfl, rfl⟩, hasks, hforwards⟩
  cases event with
  | handle peer decoded =>
    cases decoded with
    | error fault => simp [askings, Event.Brings]
    | ok m =>
      refine (hbrought peer m).trans (and_congr_left' ?_)
      simp [Event.Brings]
  | absorb peer m =>
    refine (hbrought peer m).trans (and_congr_left' ?_)
    simp [Event.Brings]
  | _ => simp [askings, Event.Brings]

/-- An event brings one request at most. -/
theorem askings_eq {x : Asking} (hx : x ∈ e.askings event) : e.askings event = [x] := by
  obtain ⟨hbrings, hasks, hforwards, htime⟩ := mem_askings.1 hx
  obtain ⟨peer, request, time⟩ := x
  obtain rfl : time = e.now := htime
  rcases hbrings with rfl | rfl <;> simp [askings, hasks, hforwards]

/-! ## What is remembered -/

/-- The clock does not go back, and what is remembered stays so until it expires. -/
structure Recalls (e e' : Engine) : Prop where
  now : e.now ≤ e'.now
  lifetimes : e.incoming.SameLifetimes e'.incoming
  remembers : ∀ key {t : Instant}, e'.now ≤ t → e.incoming.Remembers t key →
    e'.incoming.Remembers t key

namespace Recalls

/-- Memories go on from step to step. -/
theorem trans (h : Recalls e e') (h' : Recalls e' e'') : Recalls e e'' where
  now := Nat.le_trans h.now h'.now
  lifetimes := ⟨h'.lifetimes.1.trans h.lifetimes.1, h'.lifetimes.2.trans h.lifetimes.2⟩
  remembers key _ ht hkey :=
    h'.remembers key ht (h.remembers key (Nat.le_trans h'.now ht) hkey)

/-- Where no message comes in, nothing is forgotten as long as no time goes back. -/
theorem of_same (hnow : e.now ≤ e'.now) (hincoming : e'.incoming = e.incoming) :
    Recalls e e' := by
  refine ⟨hnow, ?_, ?_⟩
  · rw [hincoming]
    exact ⟨rfl, rfl⟩
  · rw [hincoming]
    exact fun _ _ _ hkey => hkey

/-- The layers of exchanges take notice of something, and messages go out. -/
theorem exchanging (e : Engine) (outgoing : Outgoing) (event : Incoming.Event)
    (messages : List (Endpoint × Message)) : Recalls e
      ({ e with outgoing, incoming := e.incoming.step e.now event }.transmitAll messages) := by
  obtain ⟨log, hlog⟩ := transmitAll_frame messages
    { e with outgoing, incoming := e.incoming.step e.now event }
  rw [hlog]
  exact ⟨Nat.le_refl _, Incoming.sameLifetimes_step e.incoming e.now event,
    fun key _ ht hkey => (Incoming.remembers_step ht).2 (.inl hkey)⟩

/-- To transmit is such a step. -/
theorem transmitAll (e : Engine) (outgoing : Outgoing) (messages : List (Endpoint × Message)) :
    Recalls e ({ e with outgoing }.transmitAll messages) := by
  obtain ⟨log, hlog⟩ := transmitAll_frame messages { e with outgoing }
  rw [hlog]
  exact of_same (Nat.le_refl _) rfl

/-- So is all that is sent. -/
theorem frame : SendingFrame Recalls fun _ _ => True where
  header _ _ := trivial
  trans := trans
  silent h := of_same (Nat.le_of_eq h.now.symm) h.incoming
  rejected e peer id := transmitAll e e.outgoing [(peer, .resetOf id)]
  reliably e peer m _ := by
    obtain ⟨outgoing, messages, hsent, -, -⟩ := sendReliably_frame e peer m
    rw [hsent]
    exact exchanging e outgoing (.send peer m) messages
  repeated e := transmitAll e (e.outgoing.fire e.outboxOpen e.now).2 _
  swept e := by
    unfold Engine.sweepDue
    split
    · exact exchanging e e.outgoing .sweep _
    · exact of_same (Nat.le_refl _) rfl
  clock _ _ hnow := of_same hnow rfl
  closed _ := of_same (Nat.le_refl _) rfl

/-- A message that comes in is remembered beside the others. -/
theorem heard (e : Engine) (peer : Endpoint) (m : Message) : Recalls e (e.heard peer m) := by
  unfold Engine.heard
  simp only
  split
  · exact exchanging e _ (.receive peer m) _
  · exact of_same (Nat.le_refl _) rfl

/-- A rejected one is not remembered, and takes no other's place. -/
theorem reject (e : Engine) (peer : Endpoint) (fault : Datagram.DecodeFault) :
    Recalls e (e.reject peer fault) := by
  obtain ⟨outgoing, messages, hreject, -⟩ := reject_frame e peer fault
  rw [hreject]
  exact transmitAll e outgoing messages

/-- To answer forgets nothing. -/
theorem answer {a : Answering} : Recalls a.node a.after :=
  frame.sendThrough a.node a.peer trivial (some a.request)

/-- To let a request wait forgets nothing. -/
theorem delayed (e : Engine) (delayed : List Delayed) : Recalls e { e with delayed } :=
  of_same (Nat.le_refl _) rfl

/-- In a turn nothing is forgotten that is still remembered at its time. -/
theorem after (htimely : turn.event.Timely e) : Recalls e (e.after turn) := by
  have hunder : Recalls e (e.under turn.service) := of_same (Nat.le_refl _) rfl
  have hpasses : Passes Recalls (e.under turn.service) _ (e.after turn) :=
    frame.passes_step delayed htimely (.of_full fun _ => trivial) (fun p m _ => heard _ p m)
      (fun p fault _ => reject _ p fault) (fun p m r _ => frame.submit _ p m r fun _ _ => trivial)
  exact hunder.trans (hpasses.across (fun _ _ => answer) trans).1

/-- So it is throughout. -/
theorem play (htimely : e.Timely turns) : Recalls e (e.play turns) := by
  induction turns generalizing e with
  | nil => exact of_same (Nat.le_refl _) rfl
  | cons turn rest ih => exact (after htimely.1).trans (ih htimely.2)

end Recalls

/-! ## Requests with the same ID -/

/-- A request that is asked opens a record. -/
theorem opens_of_asked {x : Asking} (hx : x ∈ e.askings event) :
    e.incoming.Opens e.now x.key (.receive x.peer x.request) := by
  obtain ⟨-, ⟨htype, hrequest⟩, hforwards, -⟩ := mem_askings.1 hx
  exact ⟨rfl, .inl ⟨htype, .inl hrequest⟩, hforwards⟩

/-- A request that is let in is remembered for its lifetime. -/
theorem remembered_of_asked {x : Asking} (hx : x ∈ e.askings event) {t : Instant}
    (hnow : (e.step event).now ≤ t) (ht : t < x.time + e.incoming.exchangeLifetime) :
    (e.step event).incoming.Remembers t x.key := by
  obtain ⟨hbrings, hasks, hforwards, htime⟩ := mem_askings.1 hx
  have hlater : Recalls (e.heard x.peer x.request) (e.step event) :=
    ((Recalls.frame.passes_brought Recalls.delayed hbrings
      (.of_full fun _ => trivial)).across (fun _ _ => Recalls.answer) Recalls.trans).1
  refine hlater.remembers x.key hnow ?_
  have hheard : (e.heard x.peer x.request).incoming =
      e.incoming.step e.now (.receive x.peer x.request) := by
    rw [heard_of_opens hasks (opens_of_asked hx)]
    rfl
  have hsince : e.now ≤ t :=
    Nat.le_trans (Recalls.heard e x.peer x.request).now (Nat.le_trans hlater.now hnow)
  rw [hheard]
  refine (Incoming.remembers_step hsince).2 (.inr ⟨hforwards, ?_⟩)
  refine ⟨x.request, e.incoming.exchangeLifetime, rfl, rfl, ?_, htime ▸ ht⟩
  simp only [Incoming.lifetime?, hasks.1]

/-- **Confirmable requests with the same ID are a lifetime apart**, in every history. -/
theorem apart_play (htimely : e.Timely turns)
    (hlifetime : e.incoming.exchangeLifetime = lifetime) :
    (e.gather askings turns).Pairwise fun x y => x.key = y.key → x.time + lifetime ≤ y.time := by
  induction turns generalizing e with
  | nil => exact .nil
  | cons turn rest ih =>
    have hstep := Recalls.after htimely.1
    refine List.pairwise_append.2 ⟨?_, ih htimely.2 (hstep.lifetimes.1.trans hlifetime), ?_⟩
    · cases hasked : (e.under turn.service).askings turn.event with
      | nil => exact .nil
      | cons x rest =>
        rw [← hasked, askings_eq (hasked ▸ List.mem_cons_self)]
        exact List.pairwise_singleton _ x
    intro x hx y hy hkey
    obtain ⟨before, later, after, rfl, hlater⟩ := mem_gather hy
    obtain ⟨hbefore, -⟩ := htimely.2.append
    have hplayed := Recalls.play hbefore
    have htime : y.time = ((e.after turn).play before).now := (mem_askings.1 hlater).2.2.2
    rw [htime, ← hlifetime]
    -- if it came sooner, the earlier request would still be remembered
    refine Nat.le_of_not_lt fun hsoon =>
      (Incoming.opens_receive_iff.1 (opens_of_asked hlater)).2.2 ?_
    rw [← hkey]
    exact hplayed.remembers x.key (Nat.le_refl _) (remembered_of_asked hx hplayed.now hsoon)

/-- Other requests do not make one the latest. -/
theorem latestAsked?_append_of_ne {key : MessageKey} {new : List Asking}
    (hnew : ∀ x ∈ new, x.key ≠ key) (asked : List Asking) :
    latestAsked? key (asked ++ new) = latestAsked? key asked := by
  have hnone : new.filter (fun x => x.key = key) = [] :=
    List.filter_eq_nil_iff.2 fun x hx => by simpa using hnew x hx
  rw [latestAsked?, List.filter_append, hnone, List.append_nil, latestAsked?]

/-- The last request with an ID is the latest one. -/
theorem latestAsked?_concat (asked : List Asking) (x : Asking) :
    latestAsked? x.key (asked ++ [x]) = some x := by
  have hself : [x].filter (fun y => y.key = x.key) = [x] := by simp
  rw [latestAsked?, List.filter_append, hself, List.getLast?_concat]

/-- A request that was let in is the latest with its key, or that came a lifetime later. -/
theorem latest_or_apart {asked : List Asking}
    (hapart : asked.Pairwise fun x y => x.key = y.key → x.time + lifetime ≤ y.time)
    {x : Asking} (hx : x ∈ asked) :
    ∃ y, latestAsked? x.key asked = some y ∧ (y = x ∨ x.time + lifetime ≤ y.time) := by
  have hmem : x ∈ asked.filter fun y => y.key = x.key :=
    List.mem_filter.2 ⟨hx, decide_eq_true rfl⟩
  have hsame : ∀ y ∈ asked.filter fun y => y.key = x.key, y.key = x.key :=
    fun y hy => of_decide_eq_true (List.mem_filter.1 hy).2
  have hfiltered := hapart.filter fun y => y.key = x.key
  unfold latestAsked?
  generalize asked.filter (fun y => y.key = x.key) = same at hmem hsame hfiltered
  rcases List.eq_nil_or_concat same with rfl | ⟨earlier, last, rfl⟩
  · cases hmem
  · rw [List.concat_eq_append] at hmem hsame hfiltered ⊢
    refine ⟨last, List.getLast?_concat, ?_⟩
    rcases List.mem_append.1 hmem with hearlier | hlast
    · have hkey := hsame last (by simp)
      exact .inr ((List.pairwise_append.1 hfiltered).2.2 x hearlier last (by simp) hkey.symm)
    · exact .inl (List.mem_singleton.1 hlast).symm

/-! ## The requests of responses -/

/-- **A response to a confirmable request belongs to one that was let in.** -/
theorem asked_of_answered {a : Answering} (hnobody : e.delayed = []) (htimely : e.Timely turns)
    (ha : a ∈ e.gather answerings turns) (htype : a.request.type = .confirmable) :
    ∃ x ∈ e.gather askings turns, x.key = ⟨a.peer, a.request.id⟩ ∧
      x.request.token = a.request.token := by
  obtain ⟨s, hs, htask⟩ := served_of_answered hnobody htimely ha
  obtain ⟨hpeer, hrequest⟩ : s.peer = a.peer ∧ s.request = a.request :=
    ⟨congrArg Task.peer htask, congrArg Task.request htask⟩
  rw [← hpeer, ← hrequest]
  rw [← hrequest] at htype
  obtain ⟨before, turn, after, rfl, hserved⟩ := mem_gather hs
  obtain ⟨m, hbrings, ⟨_, _, hsame⟩, hasks, -, -, hforwards⟩ := opens_of_served hserved htype
  rw [hsame]
  exact ⟨⟨s.peer, m, (e.play before).now⟩,
    gather_of_mem (mem_askings.2 ⟨hbrings, hasks, hforwards, rfl⟩), rfl, rfl⟩

end Coap.Engine
